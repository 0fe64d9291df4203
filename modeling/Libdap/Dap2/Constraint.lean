import Libdap.Dap2.CeExpr
import Libdap.Dap2.DdsLookup
import Libdap.Dap2.Selection

/-! # The constraint expression

What the actions of the grammar do, for expressions without functions. A projection marks
variables of the dataset, applies index lists and adds constant arrays; a selection records
clauses. Both read names through buffers of a fixed size.
-/

namespace Libdap.Dap2.CeParser

open Dap4 (Name BaseType)

/-! ## What is written -/

/-- `SCAN_WORD`, and `SCAN_STR` without its quotes. -/
inductive Token where
  | word (text : Name)
  | str (text : Name)
  deriving Repr, DecidableEq

/-- `array_indices`. -/
abbrev Indices := { ixs : List Index // ixs ≠ [] }

inductive Hash where
  | byte | int16 | uint16 | int32 | uint32 | float32 | float64
  deriving Repr, DecidableEq

/-- `array_const_special_form`; the words that it has are the texts of its values. -/
structure ConstArray where
  type : Hash
  hint : Name
  values : List Name
  deriving Repr, DecidableEq

/-- `proj_clause`. Index lists can stand behind every part of an `array_proj_clause`. -/
inductive ProjClause where
  | name (t : Token)
  | array (first : Token) (ixs : Indices) (more : List (Token × Option Indices))
  | const (c : ConstArray)

inductive RelOp where
  | equal | not_equal | greater | greater_eql | less | less_eql | regexp
  deriving Repr, DecidableEq

/-- `r_value` -/
inductive RValueText where
  | id (t : Token)
  | const (c : ConstArray)
  | array (t : Token) (ixs : Indices)

/-- `clause`, with one value or a list in braces. -/
structure ClauseText where
  first : RValueText
  rel_op : RelOp
  others : List RValueText

def ClauseText.values (c : ClauseText) : List RValueText := c.first :: c.others

/-- `constraint_expr`; a part that is empty is not there. -/
structure ConstraintExpr where
  projection : List ProjClause
  selection : List ClauseText

/-! ## Names -/

/-- The rule `name`. -/
def Token.name : Token → Name
  | word text => storeId (Dap4.www2id (storeId text))
  | str text => storeId (Dap4.www2id text)

def malformed : String := "Constraint expression parse error: Malformed string"

/-- A quoted string may not be empty. -/
def Token.check : Token → Except String Unit
  | word _ => pure ()
  | str text => if text = [] then throw malformed else pure ()

/-- The words of the array, as the scanner gives them. -/
def ConstArray.read (c : ConstArray) : ConstArray := { c with values := c.values.map storeId }

/-- The rule `arg_length_hint`. -/
def ConstArray.check (c : ConstArray) : Except String Unit :=
  if (checkInt32 (storeId c.hint)).isSome then pure ()
  else throw "$<type>(hint, value, ...) special form expected hint to be an integer"

/-! ## The dataset -/

/-- The operands of a clause: a variable of the dataset, or a constant with the text that it is made from. -/
inductive RValue where
  | var (b : Option BaseType)
  | word (token : Name)
  | text (s : Name)
  | vector (c : ConstArray)

structure Clause where
  first : RValue
  rel_op : RelOp
  others : List RValue

/-- The rows of a Sequence to be sent. -/
structure Rows where
  start : Int
  stop : Int
  stride : Int
  deriving Repr, DecidableEq

/-- What a constraint changes: flags of the variables, the arrays and Sequences by their identities, and what
    the evaluator has of clauses. -/
structure State where
  marked : List Nat
  in_selection : List Nat
  arrays : Nat → Array
  rows : Nat → Option Rows
  constants : List ConstArray
  expr : List Clause

namespace State

def mark (ids : List Nat) (s : State) : State := { s with marked := s.marked ++ ids }

def select (ids : List Nat) (s : State) : State := { s with in_selection := s.in_selection ++ ids }

def setArray (id : Nat) (a : Array) (s : State) : State :=
  { s with arrays := fun x => if x = id then a else s.arrays x }

def setArrays : List (Nat × Array) → State → State
  | [], s => s
  | (id, a) :: as, s => setArrays as (s.setArray id a)

def setRows (id : Nat) (r : Rows) (s : State) : State :=
  { s with rows := fun x => if x = id then some r else s.rows x }

/-- The array is a new variable of the dataset, and is marked. -/
def addConstant (c : ConstArray) (s : State) : State := { s with constants := s.constants ++ [c] }

def append_clause (c : Clause) (s : State) : State := { s with expr := s.expr ++ [c] }

/-- The array with its `send_p`. -/
def array (s : State) (id : Nat) : Array := { s.arrays id with sendP := id ∈ s.marked }

end State

mutual

/-- What `set_in_selection` sets: that of an array leaves its template alone. -/
def selectionIds : BaseType → List Nat
  | .simple id _ | .array id _ _ _ => [id]
  | .constructor id _ _ vars => id :: selectionIdsIn vars

def selectionIdsIn : List BaseType → List Nat
  | [] => []
  | b :: bs => selectionIds b ++ selectionIdsIn bs

end

/-! ## Index lists -/

/-- What stands before a dot, from the last dot on. -/
def dotPrefixes : Name → List Name
  | [] => []
  | c :: cs => (dotPrefixes cs).map (c :: ·) ++ if c = '.' then [[]] else []

def arrayId : BaseType → Option Nat
  | .array id .. => some id
  | _ => none

def sequenceId : Option BaseType → Option Nat
  | some (.constructor id _ .dods_sequence_c _) => some id
  | _ => none

/-- What `bracket_projection` tells apart. -/
inductive Target where
  | array (id : Nat)
  | grid (data : Nat) (maps : List Nat)
  | sequence (id : Nat)
  | field (sequence : Nat)
  deriving Repr, DecidableEq

section

variable (dds : List BaseType)

def parent_is_sequence (n : Name) : Option Nat :=
  (dotPrefixes n).findSome? fun s => sequenceId (Dds.var dds s).1

/-- The variable that an index list is for. The first variable of a Grid is its array. -/
def target (name : Name) : Option Target :=
  match (Dds.var dds name).1 with
  | none => none
  | some (.array id ..) => some (.array id)
  | some (.constructor _ _ .dods_grid_c (.array id .. :: maps)) => some (.grid id (maps.filterMap arrayId))
  | some (.constructor id _ .dods_sequence_c _) => some (.sequence id)
  | some _ => (parent_is_sequence dds name).map .field

end

def noSuchIdent (thing : String) : String :=
  "Constraint expression parse error: the expression referenced a " ++ thing ++ " not found in the dataset."

/-- `set_row_number_constraint` -/
def setRowNumberConstraint (id : Nat) (start stop stride : Int) (s : State) : Except String State :=
  if stop < start then throw "Starting row number must precede the ending row number."
  else pure (s.setRows id ⟨start, stop, stride⟩)

/-- The three values become `int`s. Only the last can be a star, and then it is refused. -/
def process_sequence_slices (id : Nat) (slices : List DimSlice) (s : State) : Except String State :=
  match slices with
  | [[first, second, third]] =>
    if first.type ≠ .uint32 ∨ second.type ≠ .uint32 ∨ third.type ≠ .uint32 then
      throw "Expected an integer value for the bracket subset operator used with Sequence"
    else setRowNumberConstraint id (Ints.i32 first.ui) (Ints.i32 third.ui) (Ints.i32 second.ui) s
  | _ => throw "Expected only one slice when subsetting the Sequence"

/-- A map has one dimension. -/
def process_grid_slices (array : Array) (maps : List Array) (slices : List DimSlice) :
    Except String (Array × List Array) :=
  if oneDim : ∀ m ∈ maps, m.shape.length = 1 then processGridIndicialSlices ⟨array, maps, oneDim⟩ slices
  else throw "a map has one dimension"

section

variable (dds : List BaseType)

def bracket_projection (name : Name) (ixs : List Index) (s : State) : Except String State :=
  let slices := ixs.map Index.slice
  match target dds name with
  | none => throw (noSuchIdent "array, grid or sequence")
  | some (.array id) => do
    let a ← processArraySlices (s.array id) slices
    return s.setArray id a
  | some (.grid data maps) => do
    let (a, as) ← process_grid_slices (s.array data) (maps.map s.array) slices
    -- a map that has no slice is left as it is
    let s := (s.setArray data a).setArrays ((maps.zip as).take ixs.length)
    return s.mark (← Dds.mark dds name)
  | some (.sequence id) => do
    let s := s.mark (← Dds.mark dds name)
    process_sequence_slices id slices s
  | some (.field id) => do
    let s ← process_sequence_slices id slices s
    return s.mark (← Dds.mark dds name)

/-! ## The projection -/

/-- `array_proj_clause` behind its first part. What is put together goes into a buffer again. -/
def array_proj_clause (path : Name) : List (Token × Option Indices) → State → Except String (Name × State)
  | [], s => pure (path, s)
  | (t, ixs) :: more, s => do
    t.check
    let name := path ++ t.name
    let s ← match ixs with
      | some ixs => bracket_projection dds name ixs.1 s
      | none => pure s
    array_proj_clause (storeId name) more s

/-- A `proj_clause` but for the constant arrays. -/
def proj_clause : ProjClause → State → Except String State
  | .name t, s => do
    t.check
    match (Dds.var dds t.name).1 with
    | some _ => return s.mark (← Dds.mark dds t.name)
    | none => throw (noSuchIdent "identifier")
  | .array first ixs more, s => do
    first.check
    let s ← bracket_projection dds first.name ixs.1 s
    let (name, s) ← array_proj_clause dds first.name more s
    return s.mark (← Dds.mark dds name)
  | .const _, s => pure s

/-- `projection`, with what is left of it when a constant array has made the parser return. -/
def projection : List ProjClause → State → Except String (State × Option (List ProjClause))
  | [], s => pure (s, none)
  | .const c :: rest, s => do
    c.check
    -- the action ends with a `return` from the parser
    return (s.addConstant c.read, some rest)
  | p :: rest, s => do
    projection rest (← proj_clause dds p s)

/-! ## The selection -/

/-- `id_or_const` -/
def id_or_const : Token → State → Except String (RValue × State)
  | .word text, s =>
    match (Dds.var dds (Dap4.www2id (storeId text))).1 with
    | some b => pure (.var (some b), s.select (selectionIds b))
    | none => pure (.word (storeId text), s)
  | .str text, s => do
    (Token.str text).check
    match (Dds.var dds (Dap4.www2id text)).1 with
    | some b => return (.var (some b), s)
    | none => return (.text (Dap4.www2id text), s)

def r_value : RValueText → State → Except String (RValue × State)
  | .id t, s => id_or_const dds t s
  | .const c, s => do
    c.check
    return (.vector c.read, s)
  | .array t ixs, s => do
    t.check
    let s ← bracket_projection dds t.name ixs.1 s
    let s := s.mark (← Dds.mark dds t.name)
    return (.var (Dds.var dds t.name).1, s)

def r_value_list : List RValueText → State → Except String (List RValue × State)
  | [], s => pure ([], s)
  | r :: rs, s => do
    let (v, s) ← r_value dds r s
    let (vs, s) ← r_value_list rs s
    return (v :: vs, s)

def clause (c : ClauseText) (s : State) : Except String State := do
  let (first, s) ← r_value dds c.first s
  let (others, s) ← r_value_list dds c.others s
  return s.append_clause ⟨first, c.rel_op, others⟩

def selection : List ClauseText → State → Except String State
  | [], s => pure s
  | c :: cs, s => do selection cs (← clause dds c s)

/-- `ConstraintEvaluator::parse_constraint`: the state that the parser leaves, and what of the expression it has not
    read. The value that the parser returns is not looked at. -/
def parse_constraint (ce : ConstraintExpr) (s : State) : Except String (State × ConstraintExpr) :=
  match ce.projection with
  | [] => do return (← selection dds ce.selection (s.mark (BaseType.idsIn dds)), ⟨[], []⟩)
  | _ => do
    match ← projection dds ce.projection s with
    | (s, some rest) => return (s, ⟨rest, ce.selection⟩)
    | (s, none) => return (← selection dds ce.selection s, ⟨[], []⟩)

end

end Libdap.Dap2.CeParser
