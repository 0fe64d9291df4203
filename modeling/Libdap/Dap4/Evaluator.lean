import Libdap.Dap4.LookupVar
import Libdap.Dap4.Slices

/-! # The evaluator of constraints

What the actions of the grammar do, for a constraint that has been taken apart by
it: slices of shared dimensions first, then the clauses, each of which looks up a
variable and marks it and the arrays in it.
-/

namespace Libdap.Dap4

/-- The three forms of the rule `predicate`. -/
inductive Predicate where
  | relation (op : Name) (id id' : Name)
  | range (op op' : Name) (id id' id'' : Name)
  | nd (id : Name)
  deriving Repr, DecidableEq

/-- The rules `clause` and `subset`, without and with fields. -/
inductive Clause where
  | subset (id : Name) (indexes : List Subscript) (filter : List Predicate)
  | fields (id : Name) (indexes : List Subscript) (clauses : List Clause) (filter : List Predicate)

/-- The rule `expression`. -/
structure Expression where
  dimensions : List (Name × Subscript)
  clauses : List Clause

mutual

/-- The identities on the way up from a variable. -/
def BaseType.parents (id : Nat) : BaseType → Option (List Nat)
  | .simple i _ => if i = id then some [] else none
  | .array i _ _ proto => if i = id then some [] else (parents id proto).map (· ++ [i])
  | .constructor i _ _ vars => if i = id then some [] else (parentsIn id vars).map (· ++ [i])

def BaseType.parentsIn (id : Nat) : List BaseType → Option (List Nat)
  | [] => none
  | b :: bs => (parents id b).or (parentsIn id bs)

end

mutual

def D4Group.parents (id : Nat) : D4Group → Option (List Nat)
  | .mk i _ _ _ vars groups => ((BaseType.parentsIn id vars).or (parentsIn id groups)).map (· ++ [i])

def D4Group.parentsIn (id : Nat) : List D4Group → Option (List Nat)
  | [] => none
  | g :: gs => (parents id g).or (parentsIn id gs)

end

namespace Heap

def send (h : Heap) (ids : List Nat) : Heap := { h with sendP := ids ++ h.sendP }

end Heap

namespace D4ConstraintEvaluator

def throw_not_found {α : Type} : Except String α :=
  throw "The constraint expression referenced a variable that was not found in the dataset."

def throw_not_array {α : Type} : Except String α :=
  throw "The constraint expression referenced an Array that was not found in the dataset."

def not_constructor {α : Type} : Except String α :=
  throw ("The constraint expression referenced a variable that must be a Structure or Sequence to be " ++
    "used with \x7b\x7d.")

mutual

/-- One round of the loop in `search_for_and_mark_arrays`. -/
def searchVar : BaseType → Heap → Except String Heap
  | .simple .., h => pure h
  | .array _ name decl _, h => mark_array_variable h decl name []
  | .constructor _ _ _ vars, h => searchVars vars h

def searchVars : List BaseType → Heap → Except String Heap
  | [], h => pure h
  | b :: bs, h => do searchVars bs (← searchVar b h)

end

/-- Only a constructor gets here. -/
def search_for_and_mark_arrays (h : Heap) : BaseType → Except String Heap
  | .constructor _ _ _ vars => searchVars vars h
  | .simple .. | .array .. => pure h

/-- The indexes wait in `d_indexes` for the first array that is marked, which is this variable
    if it has any. -/
def mark_arrays (h : Heap) (indexes : List Index) : BaseType → Except String Heap
  | .simple .. => pure h
  | .array _ name decl proto => do search_for_and_mark_arrays (← mark_array_variable h decl name indexes) proto
  | .constructor id name kind vars => search_for_and_mark_arrays h (.constructor id name kind vars)

def mark_variable (root : D4Group) (h : Heap) (btp : BaseType) (indexes : List Index) : Except String Heap := do
  return (← mark_arrays (h.send btp.ids) indexes btp).send ((root.parents btp.id).getD [])

def expr_msg (op arg1 arg2 : Name) : String :=
  "(" ++ String.ofList arg1 ++ " " ++ String.ofList op ++ " " ++ String.ofList arg2 ++ ")."

def get_op_code (op : Name) : Except String Unit :=
  if op ∈ ["<", ">", "<=", ">=", "==", "!=", "~="].map String.toList then pure ()
  else throw ("The opertator '" ++ String.ofList op ++ "' is not supported.")

section

-- `D4RValueFactory`, which may refuse a constant
variable (rvalue : Name → Except String Unit)

/-- The clause itself is added to the sequence and has nothing to do with what is marked. -/
def add_filter_clause (top : BaseType) (op arg1 arg2 : Name) : Except String Unit :=
  match top with
  | .constructor _ _ .dods_sequence_c vars =>
    match lookupVar vars arg1, lookupVar vars arg2 with
    | some _, some _ =>
      throw ("One of the arguments in a filter expression must be a constant: " ++ expr_msg op arg1 arg2)
    | none, none =>
      throw ("One of the arguments in a filter expression must be a variable in a Sequence: " ++
        expr_msg op arg1 arg2)
    | some _, none => do
      get_op_code op
      rvalue arg2
    | none, some _ => do
      get_op_code op
      rvalue arg1
  | _ =>
    throw ("When a filter expression is used, it must be bound to a Sequence variable: " ++ expr_msg op arg1 arg2)

def predicate (top : BaseType) : Predicate → Except String Unit
  | .relation op id id' => add_filter_clause rvalue top op id id'
  | .range op op' id id' id'' => do
    add_filter_clause rvalue top op id id'
    add_filter_clause rvalue top op' id' id''
  | .nd _ => throw "The 'ND' operator is not currently supported."

def filters (top : BaseType) : List Predicate → Except String Unit
  | [] => pure ()
  | p :: ps => do
    predicate rvalue top p
    filters top ps

variable (root : D4Group)

/-- A field is looked up in the variable on top of the stack. -/
def var (id : Name) : Option BaseType → Except String (Option BaseType)
  | some b => pure (lookupField id (some b))
  | none => root.find_var id

def lookup (top : Option BaseType) (id : Name) : Except String BaseType := do
  match ← var root id top with
  | some btp => return btp
  | none => throw_not_found

/-- What is done before the fields, and the variable that they are looked up in. -/
def openFields (h : Heap) (btp : BaseType) (indexes : List Index) : Except String (Heap × BaseType) :=
  match btp with
  | .array _ name decl proto =>
    if indexes = [] then
      if proto.isConstructorType then do return (← mark_array_variable h decl name [], btp)
      else not_constructor
    else do
      let h ← mark_array_variable h decl name indexes
      if proto.isConstructorType then return (h, proto) else not_constructor
  | .constructor .. => if indexes = [] then pure (h, btp) else throw_not_array
  | .simple .. => if indexes = [] then not_constructor else throw_not_array

mutual

def clause (top : Option BaseType) : Clause → Heap → Except String Heap
  | .subset id indexes filter, h => do
    let indexes ← indexes.mapM make_index
    let btp ← lookup root top id
    match btp, indexes with
    | .simple .., _ :: _ | .constructor .., _ :: _ => throw_not_array
    | _, _ => do
      let h ← mark_variable root h btp indexes
      filters rvalue btp filter
      return h
  | .fields id indexes cs filter, h => do
    let indexes ← indexes.mapM make_index
    let btp ← lookup root top id
    let (h, top') ← openFields h btp indexes
    let h ← clauses (some top') cs h
    filters rvalue top' filter
    return h

def clauses (top : Option BaseType) : List Clause → Heap → Except String Heap
  | [], h => pure h
  | c :: cs, h => do clauses top cs (← clause top c h)

end

/-- A dimension that is not found is a null pointer there. -/
def dimension (h : Heap) (id : Name) (i : Subscript) : Except String Heap := do
  let i ← make_index i
  match ← root.find_dim h id with
  | none => throw "a null pointer"
  | some dim => slice_dimension h id dim i

def dimensions : List (Name × Subscript) → Heap → Except String Heap
  | [], h => pure h
  | (id, i) :: ds, h => do dimensions ds (← dimension root h id i)

def parse (h : Heap) (expr : Expression) : Except String Heap := do
  clauses rvalue root none expr.clauses (← dimensions root expr.dimensions h)

end

end D4ConstraintEvaluator

end Libdap.Dap4
