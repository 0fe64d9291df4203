import Libdap.Dap4.Dataset
import Libdap.Dap4.Index

/-! # Slices

How an index becomes the slice of a shared dimension or of a dimension of an
array, with the checks each of them makes. A slice of an array's own also drops
a map of the array.
-/

namespace Libdap.Dap4

open Ints

namespace D4Dimension

def set_constraint (d : D4Dimension) (start stride stop : Nat) : D4Dimension :=
  { d with cStart := start, cStride := stride, cStop := stop, constrained := true }

/-- The size in the declaration of the dimension. -/
def printedSize (d : D4Dimension) : Nat :=
  if d.constrained then u64 ((u64 (d.cStop - d.cStart) / d.cStride : Nat) + 1) else d.size

end D4Dimension

namespace Dimension

/-- The number of elements an index is checked against, in `unsigned long long` arithmetic. -/
def span (d : Dimension) : Nat := u64 (u64 (i32 (d.stop - d.start)) + 1)

def slice (d : Dimension) (start stride stop : Int) : Dimension :=
  { d with toDimension := d.constrain start stride stop, useSdimForSlice := false }

def share (d : Dimension) : Dimension := { d with useSdimForSlice := true }

@[simp]
theorem slice_core (d : Dimension) (start stride stop : Int) :
    (d.slice start stride stop).toDimension = d.constrain start stride stop := rfl

@[simp]
theorem slice_dim (d : Dimension) (start stride stop : Int) : (d.slice start stride stop).dim = d.dim := rfl

@[simp]
theorem slice_name (d : Dimension) (start stride stop : Int) : (d.slice start stride stop).name = d.name := rfl

@[simp]
theorem share_core (d : Dimension) : d.share.toDimension = d.toDimension := rfl

@[simp]
theorem share_dim (d : Dimension) : d.share.dim = d.dim := rfl

@[simp]
theorem share_name (d : Dimension) : d.share.name = d.name := rfl

@[simp]
theorem share_use (d : Dimension) : d.share.useSdimForSlice = true := rfl

end Dimension

namespace Array

def update_length (a : Array) : Array :=
  { a with length := Dap2.Array.product (a.shape.map Dimension.toDimension) }

/-- The iterator is the index `k` of a dimension. -/
def add_constraint (a : Array) (k : Nat) (start stride stop : Int) : Except String Array :=
  match a.shape[k]? with
  | none => throw "not an iterator of this array"
  | some d =>
    let stop := d.lastIndex stop
    if d.Refuses start stride stop then throw Dap2.array_sss
    else pure (update_length { a with shape := a.shape.set k (d.slice start stride stop) })

/-- The same with a shared dimension, which is not marked here. -/
def add_d4_constraint (a : Array) (k : Nat) (dim : D4Dimension) : Except String Array := do
  let a ← if dim.constrained then a.add_constraint k (i32 dim.cStart) (i32 dim.cStride) (i32 dim.cStop)
    else pure a
  match a.shape[k]? with
  | none => throw "not an iterator of this array"
  | some d => return { a with shape := a.shape.set k d.share }

end Array

namespace Heap

/-- The dimensions of the array a pointer leads to. -/
def shapeOf (h : Heap) (a : Nat) : List Dimension := (h.arrays[a]?.map Array.shape).getD []

def use (h : Heap) (dim : Nat) : Heap :=
  { h with dims := h.dims.modify dim fun d => { d with usedByProjectedVar := true } }

def setArray (h : Heap) (a : Nat) (array : Array) : Heap := { h with arrays := h.arrays.set a array }

end Heap

def array_uses_shared_dimension (map : List Dimension) (source_dim : D4Dimension) : Bool :=
  map.any fun d => source_dim.name = d.name

/-- The first map whose source uses a dimension of that name. A map without a source
    is an error, unless the loop has stopped before it. -/
def mapToBeRemoved (h : Heap) (dim : Option D4Dimension) : List D4Map → Except String (Option D4Map)
  | [] => pure none
  | m :: maps =>
    match m.array with
    | none => throw "An array with Maps was found, but one of the Maps was not defined correctly."
    | some source =>
      if dim.any (array_uses_shared_dimension (h.shapeOf source)) then pure (some m)
      else mapToBeRemoved h dim maps

/-- `remove_map`, for the map that was found. -/
def dropMap (h : Heap) (dim : Option D4Dimension) (a : Array) : Except String Array := do
  match ← mapToBeRemoved h dim a.maps with
  | none => return a
  | some m => return { a with maps := a.maps.erase m }

def strideMessage (name : Name) : String :=
  "For '" ++ String.ofList name ++
    "', the index stride value is greater than the number of elements in the Array"

def stopMessage (name : Name) : String :=
  "For '" ++ String.ofList name ++
    "', the index stop value is greater than the number of elements in the Array"

def rankMessage (name : Name) : String :=
  "The index constraint for '" ++ String.ofList name ++ "' does not match its rank."

/-- A dimension without an index gets the slice of its shared dimension. -/
def shareDimension (h : Heap) (a k : Nat) (dim : Nat) : Except String Heap :=
  match h.arrays[a]?, h.dims[dim]? with
  | some array, some shared => do return (h.setArray a (← array.add_d4_constraint k shared)).use dim
  | _, _ => throw "a pointer that leads nowhere"

/-- The slice an index asks of one dimension of an array. -/
def sliceLocally (h : Heap) (a k : Nat) (i : Index) : Except String Heap :=
  match h.arrays[a]? with
  | none => throw "a pointer that leads nowhere"
  | some array => do
    let dim := array.shape[k]?.bind Dimension.dim
    let sliced ← array.add_constraint k (i32 i.start) (i32 i.stride) (if i.rest then -1 else i32 i.stop)
    return h.setArray a (← dropMap h (dim.bind (h.dims[·]?)) sliced)

/-- One round of the loop over the indexes. -/
def indexDimension (h : Heap) (a : Nat) (name : Name) (k : Nat) (i : Index) : Except String Heap :=
  match (h.shapeOf a)[k]? with
  | none => throw "not an iterator of this array"
  | some d =>
    if i.stride > d.span then throw (strideMessage name)
    else if ¬i.rest ∧ i.stop > d.span then throw (stopMessage name)
    else
      match d.dim with
      | some dim => if i.empty then shareDimension h a k dim else sliceLocally h a k i
      | none => sliceLocally h a k i

def indexDimensions (h : Heap) (a : Nat) (name : Name) (k : Nat) : List Index → Except String Heap
  | [] => pure h
  | i :: indexes => do indexDimensions (← indexDimension h a name k i) a name (k + 1) indexes

/-- The loop for an array that is named without indexes. -/
def shareDimensions (h : Heap) (a : Nat) (k : Nat) : List Dimension → Except String Heap
  | [] => pure h
  | d :: rest =>
    match d.dim with
    | none => shareDimensions h a (k + 1) rest
    | some dim => do shareDimensions (← shareDimension h a k dim) a (k + 1) rest

def mark_array_variable (h : Heap) (a : Nat) (name : Name) (indexes : List Index) : Except String Heap :=
  if indexes = [] then shareDimensions h a 0 (h.shapeOf a)
  else if indexes.length ≠ (h.shapeOf a).length then throw (rankMessage name)
  else indexDimensions h a name 0 indexes

def slice_dimension (h : Heap) (id : Name) (dim : Nat) (i : Index) : Except String Heap :=
  match h.dims[dim]? with
  | none => throw "a pointer that leads nowhere"
  | some d =>
    if i.stride > d.size then
      throw ("For '" ++ String.ofList id ++
        "', the index stride value is greater than the size of the dimension")
    else if ¬i.rest ∧ i.stop > u64 (d.size - 1) then
      throw ("For '" ++ String.ofList id ++
        "', the index stop value is greater than the size of the dimension")
    else
      let stop := if i.rest then u64 (d.size - 1) else i.stop
      pure { h with dims := h.dims.set dim (d.set_constraint i.start i.stride stop) }

end Libdap.Dap4
