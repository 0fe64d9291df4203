import Libdap.Dap2.AttrTable
import Libdap.Dap4.Attributes
import Libdap.Dap4.Dataset

/-! # A DDS made from a DMR

Each class has its own `transform_to_dap2`; a variable for which that gives nothing is left
out, and its container says so in an attribute. Here `none` is an exception, or a Map that
is its own. A copy keeps the variable it is a copy of.
-/

namespace Libdap.Dap4.ToDap2

open Dap2 (AttrType String_to_AttrType remove_space_encoding)

/-! ## Attributes -/

/-- An entry of a table in which there are no aliases. -/
inductive Entry where
  | attr (name : Name) (type : AttrType) (values : List Name)
  | container (name : Name) (attributes : List Entry)
  deriving Repr

def Entry.name : Entry → Name
  | .attr name .. => name
  | .container name _ => name

/-- `append_attr`; the entry that is found is the first with the name. -/
def append_attr (name : Name) (type : AttrType) (value : Name) : List Entry → Option (List Entry)
  | [] => some [.attr (remove_space_encoding name) type [value]]
  | .attr n t values :: es =>
    if n = remove_space_encoding name then
      if t = type then some (.attr n t (values ++ [value]) :: es) else none
    else (append_attr name type value es).map (.attr n t values :: ·)
  | .container n attributes :: es =>
    if n = remove_space_encoding name then none
    else (append_attr name type value es).map (.container n attributes :: ·)

def append_attrs (name : Name) (type : AttrType) : List Name → List Entry → Option (List Entry)
  | [], es => some es
  | value :: values, es => do append_attrs name type values (← append_attr name type value es)

/-- The name is looked up as it was given, and put in without its escapes. -/
def append_container (name : Name) (attributes es : List Entry) : Option (List Entry) :=
  if es.any (·.name = name) then none else some (es ++ [.container (remove_space_encoding name) attributes])

def get_dap2_AttrType : D4AttributeType → Option AttrType
  | .attr_container_c => some .container
  | .attr_byte_c => some .byte
  | .attr_int16_c => some .int16
  | .attr_uint16_c => some .uint16
  | .attr_int32_c => some .int32
  | .attr_uint32_c => some .uint32
  | .attr_float32_c => some .float32
  | .attr_float64_c => some .float64
  | .attr_str_c => some .string
  | .attr_url_c => some .url
  | .attr_otherxml_c => some .other_xml
  | .attr_int8_c => some .byte
  | .attr_uint8_c => some .byte
  | .attr_int64_c | .attr_uint64_c | .attr_enum_c | .attr_opaque_c | .attr_null_c => none

mutual

def transform_attr_to_dap2 : D4Attribute → List Entry → Option (List Entry)
  | .mk name type attributes values, es => do
    let d2_attr_type ← get_dap2_AttrType type
    if type = .attr_container_c then append_container name (← transform_attrs_to_dap2 attributes []) es
    else append_attrs name d2_attr_type values es

def transform_attrs_to_dap2 : List D4Attribute → List Entry → Option (List Entry)
  | [], es => some es
  | a :: as, es => do transform_attrs_to_dap2 as (← transform_attr_to_dap2 a es)

end

/-! ## Variables -/

inductive SimpleType where
  | dods_byte_c
  | dods_char_c
  | dods_int8_c
  | dods_uint8_c
  | dods_int16_c
  | dods_uint16_c
  | dods_int32_c
  | dods_uint32_c
  | dods_int64_c
  | dods_uint64_c
  | dods_float32_c
  | dods_float64_c
  | dods_str_c
  | dods_url_c
  | dods_opaque_c
  deriving Repr, DecidableEq

/-- `D4type_name`. -/
def SimpleType.name (t : SimpleType) : Name :=
  String.toList <| match t with
  | dods_byte_c => "Byte"
  | dods_char_c => "Char"
  | dods_int8_c => "Int8"
  | dods_uint8_c => "UInt8"
  | dods_int16_c => "Int16"
  | dods_uint16_c => "UInt16"
  | dods_int32_c => "Int32"
  | dods_uint32_c => "UInt32"
  | dods_int64_c => "Int64"
  | dods_uint64_c => "UInt64"
  | dods_float32_c => "Float32"
  | dods_float64_c => "Float64"
  | dods_str_c => "String"
  | dods_url_c => "URL"
  | dods_opaque_c => "Opaque"

/-- An array that a Map is of. The Maps of its own are told by how many dimensions theirs have. -/
structure MapArray (α : Type) where
  name : Name
  attributes : List D4Attribute
  is_dap4 : Bool
  shape : List Dimension
  proto : α
  maps : List Nat

/-- A variable of a DMR. What an array is made of has the name of the array. -/
inductive Variable where
  | simple (name : Name) (attributes : List D4Attribute) (type : SimpleType)
  | enum (name : Name) (attributes : List D4Attribute) (element_type : SimpleType) (value : Int)
      (enum_def : List (Name × Int))
  | array (name : Name) (attributes : List D4Attribute) (is_dap4 : Bool) (shape : List Dimension) (proto : Variable)
      (maps : List (MapArray Variable))
  | struct (name : Name) (attributes : List D4Attribute) (vars : List Variable)
  | sequence (name : Name) (attributes : List D4Attribute) (vars : List Variable)

/-- An array of a DDS. -/
structure Array where
  name : Name
  attr_table : List Entry
  shape : List Dimension
  proto : Variable

/-- A variable of a DDS. -/
inductive Dap2Variable where
  | simple (name : Name) (attr_table : List Entry) (type : SimpleType)
  | array (a : Array)
  | struct (name : Name) (attr_table : List Entry) (vars : List Dap2Variable)
  | sequence (name : Name) (attr_table : List Entry) (vars : List Variable)
  | grid (name : Name) (attr_table : List Entry) (array : Array) (maps : List Array)

namespace Variable

def name : Variable → Name
  | simple name .. | enum name .. | array name .. | struct name .. | sequence name .. => name

def type_name : Variable → Name
  | simple _ _ t => t.name
  | enum .. => "Enum".toList
  | array .. => "Array".toList
  | struct .. => "Structure".toList
  | sequence .. => "Sequence".toList

/-- The name is given to what an array is made of, too. -/
def rename (n : Name) : Variable → Variable
  | simple _ as t => simple n as t
  | enum _ as t v d => enum n as t v d
  | array _ as d shape proto maps => array n as d shape (rename n proto) maps
  | struct _ as vars => struct n as vars
  | sequence _ as vars => sequence n as vars

end Variable

namespace Dap2Variable

def name : Dap2Variable → Name
  | simple name .. | struct name .. | sequence name .. | grid name .. => name
  | array a => a.name

def attr_table : Dap2Variable → List Entry
  | simple _ es _ | struct _ es _ | sequence _ es _ | grid _ es .. => es
  | array a => a.attr_table

def set_name (n : Name) : Dap2Variable → Dap2Variable
  | simple _ es t => simple (www2id n) es t
  | array a => array { a with name := www2id n, proto := a.proto.rename (www2id n) }
  | struct _ es vars => struct (www2id n) es vars
  | sequence _ es vars => sequence (www2id n) es vars
  | grid _ es a maps => grid (www2id n) es a maps

end Dap2Variable

/-! ## What is left out -/

def droppedMembers : Name := "dap4:dropped_members".toList

/-- What is told of a variable that is left out. -/
structure Dropped where
  name : Name
  type_name : Name
  dims : List Dimension

def Variable.dropped : Variable → Dropped
  | array name _ _ shape proto _ => ⟨name, proto.type_name, shape⟩
  | v => ⟨v.name, v.type_name, []⟩

def MapArray.dropped (m : MapArray Variable) : Dropped := ⟨m.name, m.proto.type_name, m.shape⟩

/-- The attributes of one that is left out, which has had none in DAP2. -/
def Dropped.attributes (d : Dropped) : Option (List Entry) := do
  let es ← append_attrs "array_dimensions".toList .uint32 (d.dims.map fun dim => (toString dim.size).toList) []
  append_attr "dap4:type".toList .string d.type_name es

def make_dropped_vars_attr_table : List Dropped → List Entry → Option (List Entry)
  | [], dv_table => some dv_table
  | d :: ds, dv_table => do
    make_dropped_vars_attr_table ds (← append_container d.name (← d.attributes) dv_table)

/-- The table of those that are left out goes to the end of that of their container. -/
def append_dropped (ds : List Dropped) (es : List Entry) : Option (List Entry) :=
  if ds.isEmpty then some es
  else do append_container droppedMembers (← make_dropped_vars_attr_table ds []) es

/-! ## The transformations -/

/-- With the numbers of dimensions of the Maps. -/
def is_dap2_grid (is_dap4 : Bool) (maps : List Nat) : Bool :=
  is_dap4 && !maps.isEmpty && maps.all (· ≤ 1)

/-- The types for which there is no transformation, also as what an array is made of. -/
def SimpleType.unmappable : SimpleType → Bool
  | dods_int64_c | dods_uint64_c | dods_opaque_c => true
  | _ => false

/-- `Byte::transform_to_dap2` and `Int8::transform_to_dap2` set the type; other types are kept. -/
def SimpleType.toDap2 : SimpleType → SimpleType
  | dods_char_c | dods_uint8_c | dods_int8_c => dods_byte_c
  | t => t

/-- The class of the variable that is made for an enumeration. -/
def enumType : SimpleType → Option SimpleType
  | .dods_byte_c | .dods_int8_c | .dods_uint8_c => some .dods_byte_c
  | .dods_uint16_c => some .dods_uint16_c
  | .dods_uint32_c => some .dods_uint32_c
  | .dods_uint64_c => some .dods_uint64_c
  | .dods_int16_c => some .dods_int16_c
  | .dods_int32_c => some .dods_int32_c
  | .dods_int64_c => some .dods_int64_c
  | _ => none

/-- The label of the value; the last one with the value wins. -/
def my_label (value : Int) (enum_def : List (Name × Int)) : Name :=
  enum_def.foldl (fun label d => if d.2 = value then d.1 else label) []

def enum_def_table (t : SimpleType) : List (Name × Int) → List Entry → Option (List Entry)
  | [], es => some es
  | (label, value) :: ds, es => do
    enum_def_table t ds (← append_attr label (String_to_AttrType t.name) (toString value).toList es)

/-- The attributes of a variable that is made for an enumeration. -/
def enum_attributes (attributes : List D4Attribute) (t : SimpleType) (value : Int) (enum_def : List (Name × Int)) :
    Option (List Entry) := do
  let es ← transform_attrs_to_dap2 attributes []
  let table ← enum_def_table t enum_def []
  let es ← if my_label value enum_def = [] then some es
    else append_attr "d4:enum_label".toList .string (my_label value enum_def) es
  append_container "d4:enum_def".toList table es

/-- An array of it is left out. -/
def Variable.unmappable : Variable → Bool
  | simple _ _ t => t.unmappable
  | enum .. => true
  | _ => false

/-- `Array::transform_to_dap2` for one that does not become a Grid. -/
def array_to_dap2 (name : Name) (attributes : List D4Attribute) (is_dap4 : Bool) (shape : List Dimension)
    (proto : Variable) : Option (Option Array) :=
  if !is_dap4 then some (some ⟨name, [], shape, proto⟩)
  else if proto.unmappable then some none
  else do return some ⟨name, ← transform_attrs_to_dap2 attributes [], shape, proto⟩

/-- The loop over the Maps of an array: those that are kept and those that are left out. A Map whose
    array has Maps itself becomes a Grid, which is no array. -/
def maps_to_dap2 : List (MapArray Variable) → Option (List Array × List Dropped)
  | [] => some ([], [])
  | m :: ms => do
    if is_dap2_grid m.is_dap4 m.maps then none
    else
      match ← array_to_dap2 m.name m.attributes m.is_dap4 m.shape m.proto with
      | none =>
        let (maps, dropped_maps) ← maps_to_dap2 ms
        return (maps, m.dropped :: dropped_maps)
      | some a =>
        if a.shape.length ≠ 1 then none
        else
          let (maps, dropped_maps) ← maps_to_dap2 ms
          return (a :: maps, dropped_maps)

namespace Variable

mutual

def transform_to_dap2 : Variable → Option (Option Dap2Variable)
  | simple name attributes t =>
    if t.unmappable then some none
    else do return some (.simple name (← transform_attrs_to_dap2 attributes []) t.toDap2)
  | enum name attributes element_type value enum_def => do
    let t ← enumType element_type
    return some (.simple name (← enum_attributes attributes t value enum_def) t)
  | array name attributes is_dap4 shape proto maps =>
    if is_dap2_grid is_dap4 (maps.map (·.shape.length)) then do
      let es ← transform_attrs_to_dap2 attributes []
      let (ms, dropped_maps) ← maps_to_dap2 maps
      return some (.grid name (← append_dropped dropped_maps []) ⟨name, es, shape, proto⟩ ms)
    else do return (← array_to_dap2 name attributes is_dap4 shape proto).map .array
  | struct name attributes vars => do
    let es ← transform_attrs_to_dap2 attributes []
    let (rs, dropped_vars) ← members_to_dap2 vars
    return some (.struct name (← append_dropped dropped_vars es) rs)
  | sequence name attributes vars => do
    return some (.sequence name (← transform_attrs_to_dap2 attributes []) vars)

def members_to_dap2 : List Variable → Option (List Dap2Variable × List Dropped)
  | [] => some ([], [])
  | v :: vs => do
    let new_var ← transform_to_dap2 v
    let (rs, dropped_vars) ← members_to_dap2 vs
    match new_var with
    | some r => return (r :: rs, dropped_vars)
    | none => return (rs, v.dropped :: dropped_vars)

end

end Variable

inductive D4Group where
  | mk (name : Name) (attributes : List D4Attribute) (vars : List Variable) (groups : List D4Group)

namespace D4Group

/-- The root group is named "/" (always). -/
def is_root (name : Name) : Prop := name = "/".toList

instance (name : Name) : Decidable (is_root name) := inferInstanceAs (Decidable (name = "/".toList))

/-- From that of the group it is in. -/
def FQN (parent name : Name) : Name := if is_root name then "/".toList else parent ++ name ++ "/".toList

/-- What goes before the name of a variable of the group. -/
def namePrefix (parent name : Name) : Name := if is_root name then [] else FQN parent name

/-- The root group has its attributes copied to the table that was given. -/
def copy_attrs : List Entry → List Entry → Option (List Entry)
  | [], es => some es
  | .attr name type values :: as, es => do copy_attrs as (← append_attrs name type values es)
  | .container name attributes :: as, es => do copy_attrs as (← append_container name attributes es)

/-- The table in which a group has its attributes, before its variables are looked at. -/
def group_attrs (name : Name) (attributes : List D4Attribute) (parent_attr_table : List Entry) :
    Option (List Entry) := do
  let es ← transform_attrs_to_dap2 attributes []
  if is_root name then copy_attrs es parent_attr_table else some es

/-- Where the table of a group goes: that of the root group is the one that was given. -/
def close_attrs (name : Name) (es parent_attr_table : List Entry) : Option (List Entry) :=
  if is_root name then some es else append_container name es parent_attr_table

mutual

def transform_to_dap2 (parent : Name) : D4Group → List Entry → Option (List Dap2Variable × List Entry)
  | mk name attributes vars groups, parent_attr_table => do
    let es ← group_attrs name attributes parent_attr_table
    let (rs, dropped_vars) ← Variable.members_to_dap2 vars
    let es ← append_dropped dropped_vars es
    let (d2_vars, es) ← groups_to_dap2 (FQN parent name) groups es
    let results := rs.map fun r => r.set_name (namePrefix parent name ++ r.name)
    return (results ++ d2_vars, ← close_attrs name es parent_attr_table)

def groups_to_dap2 (parent : Name) : List D4Group → List Entry → Option (List Dap2Variable × List Entry)
  | [], es => some ([], es)
  | g :: gs, es => do
    let (results, es) ← transform_to_dap2 parent g es
    let (others, es) ← groups_to_dap2 parent gs es
    return (results ++ others, es)

end

end D4Group

/-- The root group, without its name. -/
structure DMR where
  attributes : List D4Attribute
  vars : List Variable
  groups : List D4Group

structure DDS where
  vars : List Dap2Variable
  attr_table : List Entry

def DMR.root (dmr : DMR) : D4Group := .mk "/".toList dmr.attributes dmr.vars dmr.groups

def DMR.getDDS (dmr : DMR) : Option DDS := do
  let (vars, attr_table) ← dmr.root.transform_to_dap2 [] []
  return ⟨vars, attr_table⟩

end Libdap.Dap4.ToDap2
