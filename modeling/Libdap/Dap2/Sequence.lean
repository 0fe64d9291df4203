import Libdap.Foundation.Ints
import Libdap.Foundation.Coding

/-! # DAP2 Sequences in Sequences

A Sequence with at most one child Sequence, which comes after its other variables. What a
table holds is read row by row: a row of a Sequence sets its variables and starts the
instance of its child. A Sequence is sent by its leaf, which sends the rows of the Sequences
around it before its own first one; the same reading also interns a Sequence.
-/

namespace Libdap.Dap2

open Ints

/-- A row of a table: the variables that are no Sequences, and the instance of the child. -/
inductive Row (V : Type) where
  | mk (vars : V) (child : List (Row V))

/-- A Sequence with its variables but the child, and with the instance that is read. -/
structure Sequence (V : Type) where
  vars : V
  /-- The rows of the instance, and those that `read` has not come to. -/
  rows : List (Row V)
  ahead : List (Row V)
  readP : Bool
  rowNumber : Int
  startingRowNumber : Int
  rowStride : Int
  endingRowNumber : Int
  unsentData : Bool
  wroteSoi : Bool
  leafSequence : Bool
  topMost : Bool

/-- A Sequence and what is below it, from its child on. -/
structure Nest (V : Type) where
  self : Sequence V
  below : List (Sequence V)

/-- `InternalErr`, and what is not an outcome of the code: without fuel, with nothing on a
    stack, or at a row that was not read. -/
inductive Failure where
  | backingUp
  | outOfFuel
  | emptyStack
  | unread
  deriving DecidableEq

namespace Sequence

variable {V : Type}

/-- `read` at the end of the instance: the next one is not behind this one. -/
def ended (s : Sequence V) : Sequence V :=
  { s with ahead := s.rows, unsentData := false, rowNumber := -1 }

/-- `read` of a row. -/
def loaded (s : Sequence V) (vars : V) (ahead : List (Row V)) : Sequence V :=
  { s with vars, ahead, unsentData := true }

/-- An instance is started. -/
def started (s : Sequence V) (rows : List (Row V)) : Sequence V :=
  { s with rows, ahead := rows }

/-- `read`, which gives true at the end of the data. -/
def read : Sequence V → List (Sequence V) → Bool × Nest V
  | s, [] =>
      if s.readP then (true, ⟨s, []⟩)
      else
        match s.ahead with
        | [] => (true, ⟨s.ended, []⟩)
        | .mk vars _ :: ahead => (false, ⟨s.loaded vars ahead, []⟩)
  | s, c :: below =>
      if s.readP then (true, ⟨s, c :: below⟩)
      else
        match s.ahead with
        | [] => (true, ⟨s.ended, c :: below⟩)
        | .mk vars child :: ahead =>
            let inner := (read (c.started child) below).2
            (false, ⟨s.loaded vars ahead, inner.self :: inner.below⟩)

/-- The row to begin with. -/
def firstRow (s : Sequence V) : Int :=
  if s.startingRowNumber ≠ -1 then s.startingRowNumber else 0

def isEndOfRows (s : Sequence V) (i : Int) : Bool :=
  if s.endingRowNumber = -1 then false else i > s.endingRowNumber

/-- `set_row_number_constraint` -/
def setRowNumberConstraint (start stop stride : Int) (s : Sequence V) : Option (Sequence V) :=
  if stop < start then none
  else some { s with startingRowNumber := start, rowStride := stride, endingRowNumber := stop }

end Sequence

/-- The row numbers of a request: `int`s that `set_row_number_constraint` takes. -/
structure RowConstraint where
  start : Nat
  stride : Nat
  stop : Nat
  ordered : start ≤ stop
  stop_lt : stop < 2 ^ 31
  stride_lt : stride < 2 ^ 31

namespace RowConstraint

variable {V : Type}

def set (c : RowConstraint) (s : Sequence V) : Sequence V :=
  (s.setRowNumberConstraint c.start c.stop c.stride).get (by
    have := c.ordered
    rw [Sequence.setRowNumberConstraint, if_neg (by omega)]
    rfl)

end RowConstraint

/-- What is in the variables of a Sequence before anything is read, and its constraint. -/
structure Level (V : Type) where
  vars : V
  constraint : Option RowConstraint

namespace Level

variable {V : Type}

/-- A new Sequence, before it is constrained, with the tags of its place in a nest. -/
def unconstrained (l : Level V) (rows : List (Row V)) (leaf top : Bool) : Sequence V where
  vars := l.vars
  rows := rows
  ahead := rows
  readP := false
  rowNumber := -1
  startingRowNumber := -1
  rowStride := 1
  endingRowNumber := -1
  unsentData := false
  wroteSoi := false
  leafSequence := leaf
  topMost := top

def fresh (l : Level V) (rows : List (Row V)) (leaf top : Bool) : Sequence V :=
  match l.constraint with
  | none => l.unconstrained rows leaf top
  | some c => c.set (l.unconstrained rows leaf top)

/-- The Sequences below another one. -/
def below : List (Level V) → List (Sequence V)
  | [] => []
  | l :: levels => l.fresh [] levels.isEmpty false :: below levels

/-- A nest with a table to be read, tagged as its leaf and its top-most Sequence are. -/
def nest (l : Level V) (levels : List (Level V)) (table : List (Row V)) : Nest V :=
  ⟨l.fresh table levels.isEmpty true, below levels⟩

end Level

namespace Nest

variable {V : Type}

/-- `set_read_p`, for all variables in the Sequence too. -/
def setReadP (state : Bool) (n : Nest V) : Nest V where
  self := { n.self with readP := state }
  below := n.below.map fun s => { s with readP := state }

def setRowNumber (i : Int) (n : Nest V) : Nest V :=
  { n with self := { n.self with rowNumber := i } }

/-- What the loop of `read_row` reads: nothing when that is done, which is no end of the data. -/
def readNext (n : Nest V) : Bool × Nest V :=
  if n.self.readP then (false, n) else n.self.read n.below

/-- The loop of `read_row`. A row that is not selected is not counted. -/
def readRows (selected : V → Bool) (row : Int) : Nat → Nest V → Except Failure (Bool × Nest V)
  | 0, _ => .error .outOfFuel
  | fuel + 1, n =>
      if n.self.rowNumber < row then
        let (eof, n) := n.readNext
        if eof then .ok (true, n.setReadP false)
        else if selected n.self.vars then
          readRows selected row fuel ((n.setRowNumber (n.self.rowNumber + 1)).setReadP false)
        else readRows selected row fuel (n.setReadP false)
      else .ok (false, n)

/-- `read_row`: whether there is such a row. -/
def readRow (selected : V → Bool) (row : Int) (n : Nest V) : Except Failure (Bool × Nest V) :=
  if row < n.self.rowNumber then .error .backingUp
  else if row = n.self.rowNumber then .ok (false, n)
  else do
    let (eof, n) ← readRows selected row (n.self.ahead.length + 2) n
    return (!eof, n.setReadP true)

end Nest

/-! ## Sending -/

/-- What is written, with the number of Sequences around the one that writes a marker. -/
inductive Event (V : Type) where
  | startOfInstance (level : Nat)
  | endOfSequence (level : Nat)
  | vars (v : V)

namespace Sequence

variable {V : Type}

/-- `serialize_parent_part_two`, for a parent and the Sequences around it. -/
def partTwo : List (Sequence V) → List (Sequence V) × List (Event V)
  | [] => ([], [])
  | s :: above =>
      let (above, out) := partTwo above
      if s.unsentData then
        ({ s with wroteSoi := true, unsentData := false } :: above,
          out ++ [.startOfInstance above.length, .vars s.vars])
      else (s :: above, out)

end Sequence

/-- The Sequences around one, from its parent on, the Sequence itself, and what is written. -/
abbrev Sent (V : Type) := List (Sequence V) × Nest V × List (Event V)

namespace Nest

variable {V : Type} (selection : List V → Bool)

/-- The selection is about the variables of the row and of the rows around it. -/
def selected (above : List (Sequence V)) (vars : V) : Bool :=
  selection (vars :: above.map Sequence.vars)

/-- The loop of `serialize_leaf`. -/
def sendLeafRows (above : List (Sequence V)) :
    Nat → Bool → Int → Nest V → Except Failure (Nest V × List (Event V))
  | 0, _, _, _ => .error .outOfFuel
  | fuel + 1, status, i, n =>
      if status && !n.self.isEndOfRows i then do
        let i := i32 (i + n.self.rowStride)
        let n := { n with self := { n.self with wroteSoi := true } }
        let out := [.startOfInstance above.length, .vars n.self.vars]
        let (status, n) ← (n.setReadP false).readRow (selected selection above) i
        let (n, others) ← sendLeafRows above fuel status i n
        return (n, out ++ others)
      else return (n, [])

def serializeLeaf (above : List (Sequence V)) (n : Nest V) : Except Failure (Sent V) := do
  let i := n.self.firstRow
  let (status, n) ← n.readRow (selected selection above) i
  let (above, parents) := if status && !n.self.isEndOfRows i then Sequence.partTwo above else (above, [])
  let n := { n with self := { n.self with wroteSoi := false } }
  let (n, rows) ← sendLeafRows selection above (n.self.ahead.length + 2) status i n
  let eos := if n.self.wroteSoi || n.self.topMost then [.endOfSequence above.length] else []
  return (above, n, parents ++ rows ++ eos)

/-- `serialize` of the child, when it is given for a Sequence and the ones around it. -/
def serializeChild (serialize : List (Sequence V) → Nest V → Except Failure (Sent V))
    (above : List (Sequence V)) (n : Nest V) : Except Failure (Sent V) :=
  match n.below with
  | [] => return (above, n, [])
  | c :: below => do
      let (around, child, out) ← serialize (n.self :: above) ⟨c, below⟩
      return (around.tail, ⟨around.headD n.self, child.self :: child.below⟩, out)

/-- The loop of `serialize_parent_part_one`. -/
def sendParentRows (serialize : List (Sequence V) → Nest V → Except Failure (Sent V)) :
    Nat → Bool → Int → List (Sequence V) → Nest V → Except Failure (Sent V)
  | 0, _, _, _, _ => .error .outOfFuel
  | fuel + 1, status, i, above, n =>
      if status && !n.self.isEndOfRows i then do
        let i := i32 (i + n.self.rowStride)
        let (above, n, out) ← serializeChild serialize above n
        let (status, n) ← (n.setReadP false).readRow (fun _ => true) i
        let (above, n, others) ← sendParentRows serialize fuel status i above n
        return (above, n, out ++ others)
      else return (above, n, [])

def serializeParentPartOne (serialize : List (Sequence V) → Nest V → Except Failure (Sent V))
    (above : List (Sequence V)) (n : Nest V) : Except Failure (Sent V) := do
  let i := n.self.firstRow
  let (status, n) ← n.readRow (fun _ => true) i
  let (above, n, out) ← sendParentRows serialize (n.self.ahead.length + 2) status i above n
  let n := n.setRowNumber (-1)
  if n.self.topMost || n.self.wroteSoi then
    return (above, { n with self := { n.self with wroteSoi := false } }, out ++ [.endOfSequence above.length])
  else return (above, n, out)

/-- `serialize` of a Sequence with so many below it. -/
def serializeNest : Nat → List (Sequence V) → Nest V → Except Failure (Sent V)
  | 0, above, n =>
      if n.self.leafSequence then serializeLeaf selection above n
      else serializeParentPartOne (fun above n => return (above, n, [])) above n
  | depth + 1, above, n =>
      if n.self.leafSequence then serializeLeaf selection above n
      else serializeParentPartOne (serializeNest depth) above n

/-- `serialize` of a Sequence that is in no other. -/
def serialize (n : Nest V) : Except Failure (Nest V × List (Event V)) := do
  let (_, n, out) ← serializeNest selection n.below.length [] n
  return (n, out)

end Nest

/-! ## Interning -/

/-- A row of `d_values`, with the `d_values` of the child. -/
inductive BaseTypeRow (V : Type) where
  | mk (vars : V) (child : List (BaseTypeRow V))

namespace BaseTypeRow

variable {V : Type}

def vars : BaseTypeRow V → V
  | mk vars _ => vars

def child : BaseTypeRow V → List (BaseTypeRow V)
  | mk _ child => child

@[simp]
theorem vars_mk (vars : V) (child : List (BaseTypeRow V)) : (mk vars child).vars = vars := rfl

@[simp]
theorem child_mk (vars : V) (child : List (BaseTypeRow V)) : (mk vars child).child = child := rfl

/-- The number of rows where a pointer leads: at each level it has the number of a row. -/
def size : List Nat → List (BaseTypeRow V) → Nat
  | [], rows => rows.length
  | i :: path, rows => (rows[i]?.map fun row => size path row.child).getD 0

def pushBack (row : BaseTypeRow V) : List Nat → List (BaseTypeRow V) → List (BaseTypeRow V)
  | [], rows => rows ++ [row]
  | i :: path, rows => rows.modify i fun r => mk r.vars (pushBack row path r.child)

end BaseTypeRow

/-- The `d_values` of the top-most Sequence, and the stack of pointers to `d_values`. -/
structure Interned (V : Type) where
  values : List (BaseTypeRow V)
  stack : List (List Nat)

namespace Interned

variable {V : Type}

def top (m : Interned V) : Except Failure (List Nat) :=
  match m.stack with
  | [] => .error .emptyStack
  | path :: _ => .ok path

def pop (m : Interned V) : Interned V := { m with stack := m.stack.tail }

/-- A row without a child Sequence. -/
def pushRow (m : Interned V) (path : List Nat) (vars : V) : Interned V :=
  { m with values := BaseTypeRow.pushBack (.mk vars []) path m.values }

/-- A row with a child Sequence, whose `d_values` come on the stack. -/
def pushParent (m : Interned V) (path : List Nat) (vars : V) : Interned V where
  values := BaseTypeRow.pushBack (.mk vars []) path m.values
  stack := (path ++ [BaseTypeRow.size path m.values]) :: m.stack

/-- `intern_data_parent_part_two`, for a parent and the Sequences around it. -/
def partTwo : List (Sequence V) → Interned V → Except Failure (List (Sequence V) × Interned V)
  | [], m => return ([], m)
  | s :: above, m => do
      let (above, m) ← partTwo above m
      let values ← m.top
      if s.unsentData then return ({ s with unsentData := false } :: above, m.pushParent values s.vars)
      else return (s :: above, m)

end Interned

/-- The Sequences around one, the Sequence itself, and what is interned. -/
abbrev Kept (V : Type) := List (Sequence V) × Nest V × Interned V

namespace Nest

variable {V : Type} (selection : List V → Bool)

/-- The loop of `intern_data_for_leaf`. -/
def internLeafRows (above : List (Sequence V)) (values : List Nat) :
    Nat → Bool → Int → Nest V → Interned V → Except Failure (Nest V × Interned V)
  | 0, _, _, _, _ => .error .outOfFuel
  | fuel + 1, status, i, n, m =>
      if status && !n.self.isEndOfRows i then do
        let i := i32 (i + n.self.rowStride)
        let m := m.pushRow values n.self.vars
        let (status, n) ← (n.setReadP false).readRow (selected selection above) i
        internLeafRows above values fuel status i n m
      else return (n, m)

def internDataForLeaf (above : List (Sequence V)) (n : Nest V) (m : Interned V) :
    Except Failure (Kept V) := do
  let i := n.self.firstRow
  let (status, n) ← n.readRow (selected selection above) i
  if status && !n.self.isEndOfRows i then do
    let (above, m) ← Interned.partTwo above m
    let values ← m.top
    let (n, m) ← internLeafRows selection above values (n.self.ahead.length + 2) status i n m
    return (above, n, m.pop)
  else return (above, n, m)

/-- `intern_data_private` of the child, when it is given for a Sequence and the ones around it. -/
def internChild (intern : List (Sequence V) → Nest V → Interned V → Except Failure (Kept V))
    (above : List (Sequence V)) (n : Nest V) (m : Interned V) : Except Failure (Kept V) :=
  match n.below with
  | [] => return (above, n, m)
  | c :: below => do
      let (around, child, m) ← intern (n.self :: above) ⟨c, below⟩ m
      return (around.tail, ⟨around.headD n.self, child.self :: child.below⟩, m)

/-- The loop of `intern_data_parent_part_one`. -/
def internParentRows (intern : List (Sequence V) → Nest V → Interned V → Except Failure (Kept V)) :
    Nat → Bool → Int → List (Sequence V) → Nest V → Interned V → Except Failure (Kept V)
  | 0, _, _, _, _, _ => .error .outOfFuel
  | fuel + 1, status, i, above, n, m =>
      if status && !n.self.isEndOfRows i then do
        let i := i32 (i + n.self.rowStride)
        let (above, n, m) ← internChild intern above n m
        let (status, n) ← (n.setReadP false).readRow (fun _ => true) i
        internParentRows intern fuel status i above n m
      else return (above, n, m)

def internDataParentPartOne (intern : List (Sequence V) → Nest V → Interned V → Except Failure (Kept V))
    (above : List (Sequence V)) (n : Nest V) (m : Interned V) : Except Failure (Kept V) := do
  let i := n.self.firstRow
  let (status, n) ← n.readRow (fun _ => true) i
  let size := m.stack.length
  let (above, n, m) ← internParentRows intern (n.self.ahead.length + 2) status i above n m
  let n := n.setRowNumber (-1)
  return (above, n, if m.stack.length > size then m.pop else m)

/-- `intern_data_private` of a Sequence with so many below it. -/
def internDataPrivate : Nat → List (Sequence V) → Nest V → Interned V → Except Failure (Kept V)
  | 0, above, n, m =>
      if n.self.leafSequence then internDataForLeaf selection above n m
      else internDataParentPartOne (fun above n m => return (above, n, m)) above n m
  | depth + 1, above, n, m =>
      if n.self.leafSequence then internDataForLeaf selection above n m
      else internDataParentPartOne (internDataPrivate depth) above n m

/-- `intern_data` of a Sequence that is in no other, and has no values yet. -/
def internData (n : Nest V) : Except Failure (Nest V × List (BaseTypeRow V)) := do
  let (_, n, m) ← internDataPrivate selection n.below.length [] n ⟨[], [[]]⟩
  return (n, m.values)

end Nest

/-! ## Receiving -/

/-- The variables of a row that are sent, and the markers, as they are put and got. A marker
    comes back. -/
structure Wire (V K R S : Type) extends Coding UInt8 V K R S where
  putMarker : UInt8 → List UInt8
  getMarker : S → Option (UInt8 × S)
  marker : ∀ m s rest, At s (putMarker m ++ rest) → ∃ t, getMarker s = some (m, t) ∧ At t rest

def startOfInstance : UInt8 := 0x5a

def endOfSequence : UInt8 := 0xa5

namespace Wire

variable {V K R S : Type} (wire : Wire V K R S)

/-- The octets of what is written. -/
def octets : List (Event V) → Option (List UInt8)
  | [] => some []
  | .startOfInstance _ :: out => return wire.putMarker Dap2.startOfInstance ++ (← octets out)
  | .endOfSequence _ :: out => return wire.putMarker Dap2.endOfSequence ++ (← octets out)
  | .vars v :: out => do
      let first ← wire.put v
      let others ← octets out
      return first ++ others

/-- The loop of `deserialize`. -/
def getRows (row : S → Option (BaseTypeRow R × S)) : Nat → S → Option (List (BaseTypeRow R) × S)
  | 0, _ => none
  | fuel + 1, s => do
      let (marker, s) ← wire.getMarker s
      if marker = Dap2.endOfSequence then return ([], s)
      else if marker = Dap2.startOfInstance then
        let (first, s) ← row s
        let (others, s) ← getRows row fuel s
        return (first :: others, s)
      else none

/-- `deserialize` of a Sequence and those below it, with their declared variables from the
    outermost one on. -/
def deserialize (fuel : Nat) : List K → S → Option (List (BaseTypeRow R) × S)
  | [], s => some ([], s)
  | k :: fields, s =>
      wire.getRows (fun s => do
        let (vars, s) ← wire.get k s
        let (child, s) ← deserialize fuel fields s
        return (.mk vars child, s)) fuel s

end Wire

end Libdap.Dap2
