import Libdap.Dap4.Lookup

/-! # The copy of a group

What the copy constructor of a group makes: variables, dimensions, enumerations and
child groups of its own. The array that is copied brings the pointers of its
dimensions with it, and each group then looks through its own arrays for those
that point to the dimensions it has just copied.
-/

namespace Libdap.Dap4

namespace Heap

/-- The flag goes from the original to the copy. -/
def copySendP (h : Heap) (id id' : Nat) : Heap := if id ∈ h.sendP then { h with sendP := id' :: h.sendP } else h

end Heap

section

-- what is added to an identity gives that of the copy
variable (fresh : Nat)

mutual

/-- `ptr_duplicate` of a variable, with `Vector::m_duplicate`, `Array::_duplicate` and
    `Constructor::m_duplicate`. -/
def BaseType.ptr_duplicate : BaseType → Heap → BaseType × Heap
  | .simple id name, h => (.simple (fresh + id) name, h.copySendP id (fresh + id))
  | .array id name decl proto, h =>
    let (proto', h) := ptr_duplicate proto (h.copySendP id (fresh + id))
    (.array (fresh + id) name h.arrays.length proto', { h with arrays := h.arrays ++ (h.arrays[decl]?).toList })
  | .constructor id name kind vars, h =>
    let (vars', h) := ptr_duplicate_vars vars (h.copySendP id (fresh + id))
    (.constructor (fresh + id) name kind vars', h)

/-- The loop of `Constructor::m_duplicate`. -/
def BaseType.ptr_duplicate_vars : List BaseType → Heap → List BaseType × Heap
  | [], h => ([], h)
  | b :: bs, h =>
    let (b', h) := ptr_duplicate b h
    let (bs', h) := ptr_duplicate_vars bs h
    (b' :: bs', h)

end

/-- `D4Dimensions::m_duplicate`. -/
def D4Dimensions.m_duplicate : List Nat → Heap → List Nat × Heap
  | [], h => ([], h)
  | dim :: dims, h =>
    let (dims', h') := m_duplicate dims { h with dims := h.dims ++ (h.dims[dim]?).toList }
    (h.dims.length :: dims', h')

/-- The inner loop of `update_dimension_pointers`. It goes on after a match. -/
def rewire (h : Heap) (old_dims new_dims : List Nat) (dim : Option Nat) : Option Nat :=
  old_dims.foldl (fun dim old =>
    if dim = some old then (h.dims[old]?).bind fun s => D4Dimensions.find_dim h new_dims s.name else dim) dim

/-- `Array::update_dimension_pointers`. -/
def update_dimension_pointers (old_dims new_dims : List Nat) (h : Heap) (decl : Nat) : Heap :=
  { h with arrays := h.arrays.modify decl fun a =>
      { a with shape := a.shape.map fun d => { d with dim := rewire h old_dims new_dims d.dim } } }

/-- The arrays that are variables of a group themselves. -/
def arraysOf (vars : List BaseType) : List Nat :=
  vars.filterMap fun
    | .array _ _ decl _ => some decl
    | .simple .. | .constructor .. => none

namespace D4Group

mutual

/-- `D4Group::m_duplicate`, behind `Constructor::m_duplicate` for the variables. -/
def ptr_duplicate : D4Group → Heap → D4Group × Heap
  | .mk id name dims enumDefs vars groups, h =>
    let (vars', h) := BaseType.ptr_duplicate_vars fresh vars (h.copySendP id (fresh + id))
    let (dims', h) := D4Dimensions.m_duplicate dims h
    let h := (arraysOf vars').foldl (update_dimension_pointers dims dims') h
    let enumDefs' := enumDefs.map fun e => { e with id := fresh + e.id }
    let (groups', h) := ptr_duplicate_groups groups h
    (.mk (fresh + id) name dims' enumDefs' vars' groups', h)

def ptr_duplicate_groups : List D4Group → Heap → List D4Group × Heap
  | [], h => ([], h)
  | g :: gs, h =>
    let (g', h) := ptr_duplicate g h
    let (gs', h) := ptr_duplicate_groups gs h
    (g' :: gs', h)

end

end D4Group

end

end Libdap.Dap4
