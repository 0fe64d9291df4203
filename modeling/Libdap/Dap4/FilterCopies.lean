import Libdap.Foundation.Footprint

/-! # Filter clauses of copied Sequences

The clauses of a `D4Sequence` point to variables. A copy gets clauses of its own, and these point where those of the
original do. The clauses are evaluated for every row that is read.
-/

namespace Libdap.Dap4.Filtered

open CellProgram

inductive Failure where
  | InternalErr (message : String)
  | malformed_expr (message : String)
  /-- What `read` or a comparison throws. -/
  | other (message : String)
  /-- The loop has not come to its end. -/
  | unfinished
  deriving Repr, DecidableEq

/-- What a variable holds, with its class, and its flag. -/
structure Cell (V : Type) where
  value : V
  d_is_read : Bool

abbrev Program (V α : Type) := CellProgram Failure (Cell V) α

/-! ## Clauses -/

inductive ops where
  | null
  | less
  | greater
  | less_equal
  | greater_equal
  | equal
  | not_equal
  | match_
  | map
  | ND
  deriving Repr, DecidableEq

/-- A variable by its address, with the addresses of what it contains. -/
structure Pointer where
  addr : Nat
  parts : List Nat
  deriving Repr, DecidableEq

def Pointer.addrs (p : Pointer) : List Nat := p.addr :: p.parts

inductive D4RValue (V : Type) where
  | basetype (d_variable : Pointer)
  | function
  | constant (d_constant : V)
  deriving Repr, DecidableEq

structure D4FilterClause (V : Type) where
  d_op : ops
  d_arg1 : D4RValue V
  d_arg2 : D4RValue V
  deriving Repr, DecidableEq

/-- The pointer is weak, and the constant is copied. -/
def D4RValue.m_duplicate {V : Type} : D4RValue V → D4RValue V
  | basetype d_variable => .basetype d_variable
  | function => .function
  | constant d_constant => .constant d_constant

def D4FilterClause.m_duplicate {V : Type} (rhs : D4FilterClause V) : D4FilterClause V where
  d_op := rhs.d_op
  d_arg1 := rhs.d_arg1.m_duplicate
  d_arg2 := rhs.d_arg2.m_duplicate

def D4FilterClauseList.m_duplicate {V : Type} (d_clauses src : List (D4FilterClause V)) : List (D4FilterClause V) :=
  d_clauses ++ src.map D4FilterClause.m_duplicate

/-! ## Variables -/

/-- The fields of a `D4Sequence` beside its variables and its values. -/
structure D4Sequence.Fields (V : Type) where
  d_length : Int
  d_clauses : Option (List (D4FilterClause V))
  d_copy_clauses : Bool

def D4Sequence.Fields.m_duplicate {V : Type} (s : D4Sequence.Fields V) : D4Sequence.Fields V where
  d_length := s.d_length
  d_clauses := s.d_clauses.map (D4FilterClauseList.m_duplicate [])
  d_copy_clauses := s.d_copy_clauses

/-- Variables with their addresses and whether they are sent. -/
inductive Variable (V : Type) where
  | simple (addr : Nat) (send_p : Bool)
  | array (addr : Nat) (send_p : Bool) (d_proto : Variable V) (d_compound_buf : List (Variable V))
  | struct (addr : Nat) (send_p : Bool) (d_vars : List (Variable V))
  | sequence (addr : Nat) (send_p : Bool) (fields : D4Sequence.Fields V) (d_values : List (List (Variable V)))
      (d_vars : List (Variable V))
  | group (addr : Nat) (send_p : Bool) (d_vars d_groups : List (Variable V))

namespace Variable

variable {V : Type}

def addr : Variable V → Nat
  | simple addr _ | array addr .. | struct addr .. | sequence addr .. | group addr .. => addr

def send_p : Variable V → Bool
  | simple _ send_p | array _ send_p .. | struct _ send_p _ | sequence _ send_p .. | group _ send_p .. => send_p

mutual

/-- The addresses of a variable and all that is in it. -/
def addrs : Variable V → List Nat
  | simple addr _ => [addr]
  | array addr _ d_proto d_compound_buf => addr :: (d_proto.addrs ++ addrsIn d_compound_buf)
  | struct addr _ d_vars => addr :: addrsIn d_vars
  | sequence addr _ _ d_values d_vars => addr :: (addrsIn d_vars ++ addrsRows d_values)
  | group addr _ d_vars d_groups => addr :: (addrsIn d_vars ++ addrsIn d_groups)

def addrsIn : List (Variable V) → List Nat
  | [] => []
  | v :: vs => v.addrs ++ addrsIn vs

def addrsRows : List (List (Variable V)) → List Nat
  | [] => []
  | row :: rows => addrsIn row ++ addrsRows rows

end

mutual

/-- Those whose flags `set_read_p` sets: not those of the rows of a Sequence. -/
def members : Variable V → List Nat
  | simple addr _ => [addr]
  | array addr _ d_proto d_compound_buf => addr :: (d_proto.members ++ membersIn d_compound_buf)
  | struct addr _ d_vars => addr :: membersIn d_vars
  | sequence addr _ _ _ d_vars => addr :: membersIn d_vars
  | group addr _ d_vars d_groups => addr :: (membersIn d_vars ++ membersIn d_groups)

def membersIn : List (Variable V) → List Nat
  | [] => []
  | v :: vs => v.members ++ membersIn vs

end

/-- The content of the variable itself is copied to a new one. -/
def duplicate (addr : Nat) : Program V Nat := do
  let c ← fetch addr
  allocate c

mutual

/-- The copy constructors: `Vector::m_duplicate`, `Constructor::m_duplicate`, `D4Sequence::m_duplicate` and
`D4Group::m_duplicate`. -/
def ptr_duplicate : Variable V → Program V (Variable V)
  | simple addr send_p => do
    let addr ← duplicate addr
    pure (.simple addr send_p)
  | array addr send_p d_proto d_compound_buf => do
    let addr ← duplicate addr
    let d_proto ← ptr_duplicate d_proto
    let d_compound_buf ← ptr_duplicate_vars d_compound_buf
    pure (.array addr send_p d_proto d_compound_buf)
  | struct addr send_p d_vars => do
    let addr ← duplicate addr
    let d_vars ← ptr_duplicate_vars d_vars
    pure (.struct addr send_p d_vars)
  | sequence addr send_p fields d_values d_vars => do
    let addr ← duplicate addr
    let d_vars ← ptr_duplicate_vars d_vars
    let d_values ← ptr_duplicate_rows d_values
    pure (.sequence addr send_p fields.m_duplicate d_values d_vars)
  | group addr send_p d_vars d_groups => do
    let addr ← duplicate addr
    let d_vars ← ptr_duplicate_vars d_vars
    let d_groups ← ptr_duplicate_vars d_groups
    pure (.group addr send_p d_vars d_groups)

def ptr_duplicate_vars : List (Variable V) → Program V (List (Variable V))
  | [] => pure []
  | v :: vs => do
    let v ← ptr_duplicate v
    let vs ← ptr_duplicate_vars vs
    pure (v :: vs)

def ptr_duplicate_rows : List (List (Variable V)) → Program V (List (List (Variable V)))
  | [] => pure []
  | row :: rows => do
    let row ← ptr_duplicate_vars row
    let rows ← ptr_duplicate_rows rows
    pure (row :: rows)

end

end Variable

/-- A DMR, of which the variables are those of the root group. -/
structure DMR (V : Type) where
  d_root : Variable V

def DMR.m_duplicate {V : Type} (dmr : DMR V) : Program V (DMR V) := do
  let d_root ← dmr.d_root.ptr_duplicate
  pure { d_root }

/-! ## Evaluation -/

/-- The classes of a server: `read` of a variable, and of a Sequence, which puts a row in its variables. Each leaves
alone what is not part of the variable. -/
structure Handler (V : Type) where
  read : Pointer → (Nat → Cell V) → Except Failure Bool × (Nat → Cell V)
  read_own : ∀ p, Local p.addrs (read p)
  readRow : Variable V → (Nat → Cell V) → Except Failure Bool × (Nat → Cell V)
  readRow_own : ∀ v, Local v.members (readRow v)

def set_read_p {V : Type} (addrs : List Nat) (state : Bool) : Program V Unit :=
  change addrs fun c => { c with d_is_read := state }

/-- What the value of an argument leads to. -/
inductive Operand (V : Type) where
  | variable_ (addr : Nat)
  | constant (value : V)

def Operand.get {V : Type} : Operand V → Program V V
  | variable_ addr => do
    let c ← fetch addr
    pure c.value
  | constant value => pure value

def noFunction : Failure :=
  .malformed_expr "An expression that included a function call was used in a place where that won't work."

def ops.refused : ops → Option String
  | null => some "While evaluating a constraint filter clause: Found a null operator"
  | ND | map => some "While evaluating a constraint filter clause: Filter operator not implemented"
  | less | greater | less_equal | greater_equal | equal | not_equal | match_ => none

section

-- which argument of a call is evaluated first, and `d4_ops` of the class of the first argument
variable {V : Type} (leftFirst : Bool) (d4_ops : V → V → ops → Except Failure Bool) (handler : Handler V)

def D4RValue.value : D4RValue V → Program V (Operand V)
  | basetype d_variable => do
    let _ ← call d_variable.addrs (handler.read d_variable)
    set_read_p d_variable.addrs true
    pure (.variable_ d_variable.addr)
  | function => throw noFunction
  | constant d_constant => pure (.constant d_constant)

def D4FilterClause.cmp (op : ops) (arg1 arg2 : Operand V) : Program V Bool := do
  let a ← arg1.get
  let b ← arg2.get
  returned (d4_ops a b op)

def D4FilterClause.value (c : D4FilterClause V) : Program V Bool :=
  match c.d_op.refused with
  | some message => throw (.InternalErr message)
  | none =>
    if leftFirst then do
      let arg1 ← c.d_arg1.value handler
      let arg2 ← c.d_arg2.value handler
      D4FilterClause.cmp d4_ops c.d_op arg1 arg2
    else do
      let arg2 ← c.d_arg2.value handler
      let arg1 ← c.d_arg1.value handler
      D4FilterClause.cmp d4_ops c.d_op arg1 arg2

/-- Up to the first clause that is false. -/
def D4FilterClauseList.value : List (D4FilterClause V) → Program V Bool
  | [] => pure true
  | c :: cs => do
    let holds ← c.value leftFirst d4_ops handler
    if holds = false then pure false else value cs

/-! ## Rows -/

namespace D4Sequence

/-- A row is kept when nothing is filtered or the clauses hold. -/
def keeps (filter : Bool) (d_clauses : Option (List (D4FilterClause V))) : Program V Bool :=
  match filter, d_clauses with
  | true, some cs => D4FilterClauseList.value leftFirst d4_ops handler cs
  | true, none | false, _ => pure true

/-- The loop, of so many rounds at most. -/
def read_next_instance (filter : Bool) (this : Variable V) : Nat → Fields V → Program V (Bool × Fields V)
  | 0, _ => throw .unfinished
  | fuel + 1, fields => do
    let eof ← call this.members (handler.readRow this)
    if eof then pure (false, fields)
    else do
      let done ← keeps leftFirst d4_ops handler filter fields.d_clauses
      set_read_p this.members false
      if done then pure (true, { fields with d_length := fields.d_length + 1 })
      else read_next_instance filter this fuel fields

/-- The flag of a Sequence alone. -/
def set_copy_clauses (state : Bool) : Variable V → Variable V
  | .sequence addr send_p fields d_values d_vars =>
    .sequence addr send_p { fields with d_copy_clauses := state } d_values d_vars
  | v => v

/-- The variables that are sent are copied to a row; `child` reads the values of a Sequence among them. -/
def add_row (child : Variable V → Program V (Variable V)) :
    List (Variable V) → Program V (List (Variable V) × List (Variable V))
  | [] => pure ([], [])
  | v :: vs =>
    if v.send_p then do
      let v ← child v
      let value ← (set_copy_clauses false v).ptr_duplicate
      set_read_p value.members true
      let (vs, row) ← add_row child vs
      pure (set_copy_clauses true v :: vs, value :: row)
    else do
      let (vs, row) ← add_row child vs
      pure (v :: vs, row)

/-- The `while` loop, of so many rounds at most. -/
def read_rows (child : Variable V → Program V (Variable V)) (filter : Bool) (addr : Nat) (send_p : Bool) :
    Nat → Fields V → List (List (Variable V)) → List (Variable V) →
      Program V (Fields V × List (List (Variable V)) × List (Variable V))
  | 0, _, _, _ => throw .unfinished
  | fuel + 1, fields, d_values, d_vars => do
    let (more, fields) ← read_next_instance leftFirst d4_ops handler filter
      (.sequence addr send_p fields d_values d_vars) (fuel + 1) fields
    if more then do
      let (d_vars, row) ← add_row child d_vars
      read_rows child filter addr send_p fuel fields (d_values ++ [row]) d_vars
    else pure (fields, d_values, d_vars)

/-- A variable of another class has no rows. -/
def read_sequence_values (filter : Bool) : Nat → Variable V → Program V (Variable V)
  | fuel + 1, .sequence addr send_p fields d_values d_vars => do
    let this ← fetch addr
    if this.d_is_read then pure (.sequence addr send_p fields d_values d_vars)
    else do
      let (fields, d_values, d_vars) ← read_rows leftFirst d4_ops handler (read_sequence_values filter fuel) filter addr
        send_p (fuel + 1) fields d_values d_vars
      pure (.sequence addr send_p { fields with d_length := d_values.length } d_values d_vars)
  | 0, .sequence .. => throw .unfinished
  | _, v => pure v

end D4Sequence

end

end Libdap.Dap4.Filtered
