import Libdap.Dap2.Array

/-! # The DAP4 dataset

A tree of groups that own their dimensions, enumerations and variables. What
other objects point to (a shared dimension, an array) has an address in a heap,
and what a constraint changes is in the heap too: the tree itself, and with it
every name and every parent, stays as it is.
-/

namespace Libdap.Dap4

/-- A `std::string` that is taken apart by a lookup. -/
abbrev Name := List Char

/-- A shared dimension. -/
structure D4Dimension extends Dap2.D4Dimension where
  name : Name
  usedByProjectedVar : Bool
  deriving Repr, DecidableEq

/-- A dimension of an array, with a pointer to the shared dimension it came from. -/
structure Dimension extends Dap2.Dimension where
  name : Name
  dim : Option Nat
  useSdimForSlice : Bool
  deriving Repr, DecidableEq

/-- A map of an array, with a pointer to the array that has its values. -/
structure D4Map where
  name : Name
  array : Option Nat
  deriving Repr, DecidableEq

/-- The part of an array that is its own, without its name and element template. -/
structure Array where
  shape : List Dimension
  length : Int
  maps : List D4Map
  deriving Repr, DecidableEq

structure D4EnumDef where
  id : Nat
  name : Name
  deriving Repr, DecidableEq

inductive Constructor.Kind where
  | dods_structure_c
  | dods_sequence_c
  | dods_grid_c
  deriving Repr, DecidableEq

/-- A variable. Every one has an identity; an array also has an address. -/
inductive BaseType where
  | simple (id : Nat) (name : Name)
  | array (id : Nat) (name : Name) (decl : Nat) (proto : BaseType)
  | constructor (id : Nat) (name : Name) (kind : Constructor.Kind) (vars : List BaseType)
  deriving Repr

/-- A group, with the addresses of the dimensions it declares. -/
inductive D4Group where
  | mk (id : Nat) (name : Name) (dims : List Nat) (enumDefs : List D4EnumDef) (vars : List BaseType)
      (groups : List D4Group)
  deriving Repr

structure Heap where
  dims : List D4Dimension
  arrays : List Array
  /-- The variables and groups whose `send_p` is set. -/
  sendP : List Nat
  deriving Repr, DecidableEq

namespace BaseType

def id : BaseType → Nat
  | simple id _ | array id _ _ _ | constructor id _ _ _ => id

def name : BaseType → Name
  | simple _ name | array _ name _ _ | constructor _ name _ _ => name

def isConstructorType : BaseType → Bool
  | constructor .. => true
  | simple .. | array .. => false

mutual

/-- The identities of everything in a variable. -/
def ids : BaseType → List Nat
  | .simple id _ => [id]
  | .array id _ _ proto => id :: ids proto
  | .constructor id _ _ vars => id :: idsIn vars

def idsIn : List BaseType → List Nat
  | [] => []
  | b :: bs => ids b ++ idsIn bs

end

end BaseType

namespace D4Group

def id : D4Group → Nat | mk id _ _ _ _ _ => id
def name : D4Group → Name | mk _ name _ _ _ _ => name
def dims : D4Group → List Nat | mk _ _ dims _ _ _ => dims
def enumDefs : D4Group → List D4EnumDef | mk _ _ _ enumDefs _ _ => enumDefs
def vars : D4Group → List BaseType | mk _ _ _ _ vars _ => vars
def groups : D4Group → List D4Group | mk _ _ _ _ _ groups => groups

mutual

def ids : D4Group → List Nat
  | .mk id _ _ _ vars groups => id :: (BaseType.idsIn vars ++ idsIn groups)

def idsIn : List D4Group → List Nat
  | [] => []
  | g :: gs => ids g ++ idsIn gs

end

end D4Group

namespace Dimension

/-- `dimension(unsigned long, string)`. -/
def ofSize (size : Int) (name : Name) : Dimension :=
  { toDimension := .ofSize size, name, dim := none, useSdimForSlice := false }

/-- `dimension(D4Dimension *)`. -/
def ofD4 (address : Nat) (dim : D4Dimension) : Dimension :=
  { toDimension := .ofD4 dim.toD4Dimension, name := dim.name, dim := some address, useSdimForSlice := true }

end Dimension

namespace D4Dimension

/-- A dimension as it is declared. -/
def declared (name : Name) (size : Nat) : D4Dimension :=
  { size, constrained := false, cStart := 0, cStride := 0, cStop := 0, name, usedByProjectedVar := false }

end D4Dimension

end Libdap.Dap4
