import Libdap.Dap4.DataRoundTrip
import Libdap.Foundation.CInt

/-! # Rows of DAP4 Sequences on the wire

A Sequence reads all of its rows before it sends their number and the values of each. A
child Sequence is one object: it is read again for every row of its parent, and what it
holds then is copied to the row. The client gets the rows into one object in the same way.
-/

namespace Libdap.Dap4.SequenceTransfer

open Marshal D4RoundTrip DataResponse

/-- A variable of a Sequence: one without Sequences in it, or a child Sequence with its own. -/
inductive Column where
  | var (d : Decl Leaf)
  | sequence (columns : List Column)

namespace Column

mutual
/-- What the server delivers for a variable: its value, or the rows of a child Sequence. -/
def Cell : Column → Type
  | var d => d.Value Leaf.Value
  | sequence columns => List (Row columns)

def Row : List Column → Type
  | [] => Unit
  | c :: cs => c.Cell × Row cs
end

mutual
/-- `send_p` of what is in a variable. -/
def Marks : Column → Type
  | var d => d.Marks
  | sequence columns => RowMarks columns

def RowMarks : List Column → Type
  | [] => Unit
  | c :: cs => Bool × c.Marks × RowMarks cs
end

mutual
/-- The values of the filter clauses of every Sequence, as they depend on the row that was read. -/
def Clauses : Column → Type
  | var _ => Unit
  | sequence columns => (Row columns → Bool) × RowClauses columns

def RowClauses : List Column → Type
  | [] => Unit
  | c :: cs => c.Clauses × RowClauses cs
end

mutual
/-- The declaration of what is sent. -/
def declared : (c : Column) → c.Marks → Column
  | var d, marks => var (d.declared marks)
  | sequence columns, marks => sequence (declaredRow columns marks)

def declaredRow : (cs : List Column) → RowMarks cs → List Column
  | [], _ => []
  | c :: cs, (true, marks, others) => c.declared marks :: declaredRow cs others
  | _ :: cs, (false, _, others) => declaredRow cs others
end

end Column

open Column

/-- What a Sequence holds of its rows. -/
structure D4SeqValues (R : Type) where
  d_length : Int
  d_values : List R
  deriving DecidableEq

def D4SeqValues.empty {R : Type} : D4SeqValues R := ⟨0, []⟩

/-! ## The server -/

mutual
/-- What is in a row for a variable: its value, or a copy of a child Sequence. -/
def Stored : (c : Column) → c.Marks → Type
  | .var d, _ => d.Value Leaf.Value
  | .sequence columns, marks => D4SeqValues (StoredRow columns marks)

/-- A row has the variables that are sent. -/
def StoredRow : (cs : List Column) → RowMarks cs → Type
  | [], _ => Unit
  | c :: cs, (true, marks, others) => Stored c marks × StoredRow cs others
  | _ :: cs, (false, _, others) => StoredRow cs others
end

mutual
/-- The variable itself: a Sequence has rows, and its own variables. -/
def Object : (c : Column) → c.Marks → Type
  | .var _, _ => Unit
  | .sequence columns, marks => D4SeqValues (StoredRow columns marks) × Objects columns marks

def Objects : (cs : List Column) → RowMarks cs → Type
  | [], _ => Unit
  | c :: cs, (_, marks, others) => Object c marks × Objects cs others
end

mutual
/-- Variables of which nothing has been read. -/
def fresh : (c : Column) → (marks : c.Marks) → Object c marks
  | .var _, _ => ()
  | .sequence columns, marks => (.empty, freshRow columns marks)

def freshRow : (cs : List Column) → (marks : RowMarks cs) → Objects cs marks
  | [], _ => ()
  | c :: cs, (_, marks, others) => (fresh c marks, freshRow cs others)
end

/-- A row that is kept: counted, and put behind the others. -/
def push {R O : Type} (s : D4SeqValues R × O) (added : O × R) : D4SeqValues R × O :=
  (⟨s.1.d_length + 1, s.1.d_values ++ [added.2]⟩, added.1)

mutual
/-- `read_sequence_values` of a Sequence that is filtered, with the rows that `read` delivers, and the copy of what it
    holds then; the copy of any other variable. -/
def read_sequence_values : (c : Column) → (marks : c.Marks) → c.Clauses → Object c marks → c.Cell →
    Object c marks × Stored c marks
  | .var _, _, _, object, value => (object, value)
  | .sequence columns, marks, (d_clauses, clauses), object, rows =>
      let (values, objects) := rows.foldl (fun s row =>
        if d_clauses row then push s (add_row columns marks clauses s.2 row) else s) object
      let values := { values with d_length := values.d_values.length }
      ((values, objects), values)

/-- The loop over the variables of a row. -/
def add_row : (cs : List Column) → (marks : RowMarks cs) → RowClauses cs → Objects cs marks → Row cs →
    Objects cs marks × StoredRow cs marks
  | [], _, _, _, _ => ((), ())
  | c :: cs, (true, marks, others), (clauses, rest), (object, objects), (cell, cells) =>
      let (object, value) := read_sequence_values c marks clauses object cell
      let (objects, row) := add_row cs others rest objects cells
      ((object, objects), (value, row))
  | _ :: cs, (false, _, others), (_, rest), (object, objects), (_, cells) =>
      let (objects, row) := add_row cs others rest objects cells
      ((object, objects), row)
end

/-- `put_count` of an `int64_t` that is a size. -/
def put_count (n : Int) : Option (List Datum) :=
  if small : 0 ≤ n ∧ n < 2 ^ 63 then some [.count n.toNat (by omega)] else none

mutual
/-- `serialize` of what is in a row: a Sequence that has been read sends its number of rows and the rows. -/
def serialize : (c : Column) → (marks : c.Marks) → Stored c marks → Option (List Datum)
  | .var d, marks, v => sender.serialize d marks v
  | .sequence columns, marks, values => do
      let count ← put_count values.d_length
      let rows ← collect (serialize_row columns marks) values.d_values
      return count ++ rows

def serialize_row : (cs : List Column) → (marks : RowMarks cs) → StoredRow cs marks → Option (List Datum)
  | [], _, _ => some []
  | c :: cs, (true, marks, others), (v, row) => do
      let first ← serialize c marks v
      let rest ← serialize_row cs others row
      return first ++ rest
  | _ :: cs, (false, _, others), row => serialize_row cs others row
end

/-! ## The client -/

mutual
def Held : Column → Type
  | .var d => d.Value Leaf.Result
  | .sequence columns => D4SeqValues (HeldRow columns)

def HeldRow : List Column → Type
  | [] => Unit
  | c :: cs => Held c × HeldRow cs
end

mutual
def HeldObject : Column → Type
  | .var _ => Unit
  | .sequence columns => D4SeqValues (HeldRow columns) × HeldObjects columns

def HeldObjects : List Column → Type
  | [] => Unit
  | c :: cs => HeldObject c × HeldObjects cs
end

mutual
/-- A declaration that has got no values. -/
def declaredFresh : (c : Column) → HeldObject c
  | .var _ => ()
  | .sequence columns => (.empty, declaredFreshRow columns)

def declaredFreshRow : (cs : List Column) → HeldObjects cs
  | [] => ()
  | c :: cs => (declaredFresh c, declaredFreshRow cs)
end

/-- The loop that gets so many rows. -/
def get_rows {R O S : Type} (get_row : O → S → Option (O × R × S)) :
    Nat → O → List R → S → Option (O × List R × S)
  | 0, objects, d_values, s => some (objects, d_values, s)
  | n + 1, objects, d_values, s => do
      let (objects, row, s) ← get_row objects s
      get_rows get_row n objects (d_values ++ [row]) s

/-- The rows of a Sequence of this length, and the copy of it. -/
def get_values {R O S : Type} (get_row : O → S → Option (O × R × S)) (d_length : Int) (object : D4SeqValues R × O) (s : S) :
    Option ((D4SeqValues R × O) × D4SeqValues R × S) := do
  let (objects, d_values, s) ← get_rows get_row d_length.toNat object.2 object.1.d_values s
  return ((⟨d_length, d_values⟩, objects), ⟨d_length, d_values⟩, s)

abbrev int64_t : CType := ⟨64, true⟩

section

variable (host : Words.ByteOrder) (twiddle : Bool)

mutual
/-- `deserialize`, and the copy of the variable for the row. The count is an `int64_t`. -/
def deserialize : (c : Column) → HeldObject c → InStream UInt8 → Option (HeldObject c × Held c × InStream UInt8)
  | .var d, object, s => do
      let (v, s) ← (receiver host twiddle).deserialize d s
      return (object, v, s)
  | .sequence columns, object, s => do
      let (um_count, s) ← D4StreamUnMarshaller.getCount host s
      get_values (deserialize_row columns) (int64_t.convert um_count) object s

def deserialize_row : (cs : List Column) → HeldObjects cs → InStream UInt8 →
    Option (HeldObjects cs × HeldRow cs × InStream UInt8)
  | [], _, s => some ((), (), s)
  | c :: cs, (object, objects), s => do
      let (object, v, s) ← deserialize c object s
      let (objects, row, s) ← deserialize_row cs objects s
      return ((object, objects), (v, row), s)
end

end

/-! ## What a client is to hold -/

mutual
/-- The rows that pass the filter, each with its own child rows. -/
def expected : (c : Column) → (marks : c.Marks) → c.Clauses → c.Cell → Held (c.declared marks)
  | .var d, marks, _, v => d.sent Leaf.result marks v
  | .sequence columns, marks, (d_clauses, clauses), rows =>
      let kept := rows.filter d_clauses
      ⟨kept.length, kept.map (expectedRow columns marks clauses)⟩

def expectedRow : (cs : List Column) → (marks : RowMarks cs) → RowClauses cs → Row cs → HeldRow (declaredRow cs marks)
  | [], _, _, _ => ()
  | c :: cs, (true, marks, others), (clauses, rest), (cell, cells) =>
      (expected c marks clauses cell, expectedRow cs others rest cells)
  | _ :: cs, (false, _, others), (_, rest), (_, cells) => expectedRow cs others rest cells
end

/-- The rows of a table that the clauses let through. -/
def kept {columns : List Column} (clauses : (Column.sequence columns).Clauses) (rows : List (Row columns)) :
    List (Row columns) := rows.filter clauses.1

mutual
/-- Of the rows that are kept of all but the last of these tables there are none, and so on within the last. -/
def LastOnly : (c : Column) → c.Marks → c.Clauses → List c.Cell → Prop
  | .var _, _, _, _ => True
  | .sequence columns, marks, clauses, tables =>
      (∀ rows ∈ tables.dropLast, kept clauses rows = []) ∧
        ∀ rows ∈ tables.getLast?, LastOnlyRows columns marks clauses.2 (kept clauses rows)

/-- Of each child Sequence of these rows. -/
def LastOnlyRows : (cs : List Column) → RowMarks cs → RowClauses cs → List (Row cs) → Prop
  | [], _, _, _ => True
  | c :: cs, (true, marks, others), (clauses, rest), rows =>
      LastOnly c marks clauses (rows.map Prod.fst) ∧ LastOnlyRows cs others rest (rows.map Prod.snd)
  | _ :: cs, (false, _, others), (_, rest), rows => LastOnlyRows cs others rest (rows.map Prod.snd)
end

end Libdap.Dap4.SequenceTransfer
