import Libdap.Dap4.AttributeSearch
import Libdap.Dap4.Lookup
import Libdap.Dap4.NumberTexts
import Libdap.Foundation.Ints

/-! # A DMR while it is built

The tree of groups with what other objects point to beside it: the dimensions and the arrays
of the heap, the enumerations, what every variable and group has besides its name, and the
tables of attributes. A pointer to a group is the way down to it from the root, one to a table
inside of another is the way down to the container that has it: both only grow.
-/

namespace Libdap.Dap4.Dmr

/-- `Type`. -/
inductive Typ where
  | dods_null_c
  | dods_byte_c
  | dods_char_c
  | dods_int8_c
  | dods_uint8_c
  | dods_int16_c
  | dods_uint16_c
  | dods_int32_c
  | dods_uint32_c
  | dods_int64_c
  | dods_uint64_c
  | dods_float32_c
  | dods_float64_c
  | dods_str_c
  | dods_url_c
  | dods_enum_c
  | dods_opaque_c
  | dods_array_c
  | dods_structure_c
  | dods_sequence_c
  | dods_grid_c
  | dods_group_c
  deriving Repr, DecidableEq

open Typ

/-- Both spellings of an URL are known. -/
def get_type (name : String) : Typ :=
  if name = "Byte" then dods_byte_c
  else if name = "Char" then dods_char_c
  else if name = "Int8" then dods_int8_c
  else if name = "UInt8" then dods_uint8_c
  else if name = "Int16" then dods_int16_c
  else if name = "UInt16" then dods_uint16_c
  else if name = "Int32" then dods_int32_c
  else if name = "UInt32" then dods_uint32_c
  else if name = "Int64" then dods_int64_c
  else if name = "UInt64" then dods_uint64_c
  else if name = "Float32" then dods_float32_c
  else if name = "Float64" then dods_float64_c
  else if name = "String" then dods_str_c
  else if name = "Url" ∨ name = "URL" then dods_url_c
  else if name = "Enum" then dods_enum_c
  else if name = "Opaque" then dods_opaque_c
  else if name = "Array" then dods_array_c
  else if name = "Structure" then dods_structure_c
  else if name = "Sequence" then dods_sequence_c
  else if name = "Grid" then dods_grid_c
  else dods_null_c

def D4type_name : Typ → Option String
  | dods_null_c => some "Null"
  | dods_byte_c => some "Byte"
  | dods_char_c => some "Char"
  | dods_int8_c => some "Int8"
  | dods_uint8_c => some "UInt8"
  | dods_int16_c => some "Int16"
  | dods_uint16_c => some "UInt16"
  | dods_int32_c => some "Int32"
  | dods_uint32_c => some "UInt32"
  | dods_int64_c => some "Int64"
  | dods_uint64_c => some "UInt64"
  | dods_enum_c => some "Enum"
  | dods_float32_c => some "Float32"
  | dods_float64_c => some "Float64"
  | dods_str_c => some "String"
  | dods_url_c => some "URL"
  | dods_opaque_c => some "Opaque"
  | dods_array_c => some "Array"
  | dods_structure_c => some "Structure"
  | dods_sequence_c => some "Sequence"
  | dods_group_c => some "Group"
  | dods_grid_c => none

def is_simple_type : Typ → Bool
  | dods_null_c | dods_array_c | dods_structure_c | dods_sequence_c | dods_grid_c | dods_group_c => false
  | _ => true

def is_integer_type : Typ → Bool
  | dods_byte_c | dods_char_c | dods_int8_c | dods_uint8_c | dods_int16_c | dods_uint16_c | dods_int32_c | dods_uint32_c
  | dods_int64_c | dods_uint64_c => true
  | _ => false

/-- `D4EnumDef::is_valid_enum_value`. -/
def is_valid_enum_value (type : Typ) (value : Int) : Bool :=
  match type with
  | dods_int8_c => decide (-2 ^ 7 ≤ value ∧ value < 2 ^ 7)
  | dods_byte_c | dods_uint8_c => decide (0 ≤ value ∧ value < 2 ^ 8)
  | dods_int16_c => decide (-2 ^ 15 ≤ value ∧ value < 2 ^ 15)
  | dods_uint16_c => decide (0 ≤ value ∧ value < 2 ^ 16)
  | dods_int32_c => decide (-2 ^ 31 ≤ value ∧ value < 2 ^ 31)
  | dods_uint32_c => decide (0 ≤ value ∧ value < 2 ^ 32)
  | dods_int64_c => true
  | dods_uint64_c => decide (0 ≤ value)
  | _ => false

/-- Why there is no DMR: an exception, or a program without a meaning (an empty stack, a null pointer). -/
inductive Failure where
  | error (message : Name)
  | internalErr (message : Name)
  | undefined
  deriving Repr, DecidableEq

/-! ## Numbers -/

/-- What `operator>>` does to an integer when there is something behind the white space. -/
structure Extracted where
  value : Int
  fail : Bool
  rest : Name
  deriving Repr, DecidableEq

/-- Only the magnitude of an unsigned number is held against its range. -/
def extract (t : CType) (s : Name) : Option Extracted :=
  match s.dropWhile Numeral.isspace with
  | [] => none
  | front =>
    let (negative, cs) := Numeral.sign front
    match Numeral.digits 10 cs with
    | ([], rest) => some ⟨0, true, rest⟩
    | (ds, rest) =>
      let value := signed negative (number 10 ds)
      let magnitude : Int := if t.signed then value else number 10 ds
      if magnitude < t.least then some ⟨t.least, true, rest⟩
      else if t.bound ≤ magnitude then some ⟨t.bound - 1, true, rest⟩
      else some ⟨t.convert value, false, rest⟩

/-- `strtol` with base 10, converted to an `int`. -/
def atoi (s : Name) : Int :=
  let (negative, cs) := Numeral.sign (s.dropWhile Numeral.isspace)
  let value := signed negative (number 10 (Numeral.digits 10 cs).1)
  Ints.i32 (max (-2 ^ 63) (min (2 ^ 63 - 1) value))

/-- `D4Dimension::set_size`, which takes a text without anything behind the number. -/
def set_size (size : Name) : Option Nat :=
  match extract ⟨64, false⟩ size with
  | some ⟨value, false, []⟩ => some value.toNat
  | _ => none

/-! ## Groups -/

/-- The way down from the root. -/
abbrev Place := List Nat

namespace D4Group

def at? : D4Group → Place → Option D4Group
  | g, [] => some g
  | .mk _ _ _ _ _ groups, i :: p => (groups[i]?).bind (at? · p)

def modifyAt : Place → (D4Group → D4Group) → D4Group → D4Group
  | [], f, g => f g
  | i :: p, f, .mk id name dims enumDefs vars groups =>
    .mk id name dims enumDefs vars (groups.modify i (modifyAt p f))

/-- The names of a group and of its parents up to the root. -/
def names : D4Group → Place → List Name
  | g, [] => [g.name]
  | .mk _ name _ _ _ groups, i :: p =>
    match groups[i]? with
    | none => [name]
    | some c => names c p ++ [name]

def add_dim (dim : Nat) : D4Group → D4Group
  | .mk id name dims enumDefs vars groups => .mk id name (dims ++ [dim]) enumDefs vars groups

def add_enum (e : D4EnumDef) : D4Group → D4Group
  | .mk id name dims enumDefs vars groups => .mk id name dims (enumDefs ++ [e]) vars groups

def add_var (v : BaseType) : D4Group → D4Group
  | .mk id name dims enumDefs vars groups => .mk id name dims enumDefs (vars ++ [v]) groups

def add_group (g : D4Group) : D4Group → D4Group
  | .mk id name dims enumDefs vars groups => .mk id name dims enumDefs vars (groups ++ [g])

end D4Group

/-! ## Attributes -/

def StringToD4AttributeType (s : Name) : D4AttributeType :=
  let s := s.map Char.toLower
  if s = "container".toList then .attr_container_c
  else if s = "byte".toList then .attr_byte_c
  else if s = "int8".toList then .attr_int8_c
  else if s = "uint8".toList then .attr_uint8_c
  else if s = "int16".toList then .attr_int16_c
  else if s = "uint16".toList then .attr_uint16_c
  else if s = "int32".toList then .attr_int32_c
  else if s = "uint32".toList then .attr_uint32_c
  else if s = "int64".toList then .attr_int64_c
  else if s = "uint64".toList then .attr_uint64_c
  else if s = "float32".toList then .attr_float32_c
  else if s = "float64".toList then .attr_float64_c
  else if s = "string".toList then .attr_str_c
  else if s = "url".toList then .attr_url_c
  else if s = "otherxml".toList then .attr_otherxml_c
  else .attr_null_c

namespace D4Attributes

/-- The attribute at a place, which is not the empty one, is changed. -/
def modifyAttr : Place → (D4Attribute → D4Attribute) → List D4Attribute → List D4Attribute
  | [], _, attrs => attrs
  | [i], f, attrs => attrs.modify i f
  | i :: p, f, attrs =>
    attrs.modify i fun
      | .mk name type attributes values => .mk name type (modifyAttr p f attributes) values

/-- The attributes of the container at a place are changed; the empty place is the table itself. -/
def modifyAt : Place → (List D4Attribute → List D4Attribute) → List D4Attribute → List D4Attribute
  | [], f, attrs => f attrs
  | i :: p, f, attrs =>
    attrs.modify i fun
      | .mk name type attributes values => .mk name type (modifyAt p f attributes) values

def at? : List D4Attribute → Place → Option (List D4Attribute)
  | attrs, [] => some attrs
  | attrs, i :: p => (attrs[i]?).bind fun a => at? a.attributes p

/-- `D4Attributes::get`, which answers with a place. -/
def get (attrs : List D4Attribute) (fqn : Name) : Option Place :=
  match _parts : splitFirst '.' fqn with
  | none => if fqn = [] then none else (attrs.findIdx? (·.name = fqn)).map ([·])
  | some (part, rest) =>
    if part = [] then none
    else if rest = [] then (attrs.findIdx? (·.name = part)).map ([·])
    else
      match attrs.findIdx? fun a => a.name = part ∧ a.type = .attr_container_c with
      | none => none
      | some i => (get ((attrs[i]?.map D4Attribute.attributes).getD []) rest).map (i :: ·)
termination_by fqn.length
decreasing_by
  have shorter := length_of_splitFirst _parts
  omega

/-- What the end of a value does: the attribute with the name is looked up, or made, and gets the value. -/
def add_value (name type value : Name) (attrs : List D4Attribute) : List D4Attribute :=
  match get attrs name with
  | some place => modifyAttr place (·.addValue value) attrs
  | none => attrs ++ [(D4Attribute.new name (StringToD4AttributeType type)).addValue value]

end D4Attributes

/-- A pointer to a `D4Attributes`: a table, and the way down to a container in it. -/
structure Table where
  table : Nat
  place : Place
  deriving Repr, DecidableEq

/-! ## The store -/

/-- An enumeration, with the group that it is added to. -/
structure EnumDef where
  d_name : Name
  d_type : Typ
  d_tuples : List (Name × Int)
  d_parent : Option Place
  deriving Repr, DecidableEq

/-- What a variable or a group has besides its name: `d_type`, `d_enum_def` and `d_attributes`. -/
structure Object where
  d_type : Typ
  d_enum_def : Option Nat
  d_attributes : Option Nat
  deriving Repr, DecidableEq

structure DMR where
  d_name : Name
  d_dap_version : Name
  d_dap_major : Int
  d_dap_minor : Int
  d_dmr_version : Name
  d_request_xml_base : Name
  d_namespace : String
  root : D4Group
  heap : Heap
  /-- The groups that the dimensions are added to. -/
  dim_parents : List Place
  enums : List EnumDef
  objects : List Object
  tables : List (List D4Attribute)
  deriving Repr

namespace DMR

def c_dap40_namespace : String := "http://xml.opendap.org/ns/DAP/4.0#"

/-- A DMR, when its root has been asked for. -/
def new : DMR where
  d_name := []
  d_dap_version := "4.0".toList
  d_dap_major := 4
  d_dap_minor := 0
  d_dmr_version := "1.0".toList
  d_request_xml_base := []
  d_namespace := c_dap40_namespace
  root := .mk 0 ['/'] [] [] [] []
  heap := ⟨[], [], []⟩
  dim_parents := []
  enums := []
  objects := [⟨dods_group_c, none, none⟩]
  tables := []

/-- The major number, a point and the minor number. A point that is not there is not set either. -/
def set_dap_version (v : Name) (dmr : DMR) : Except Failure DMR := do
  let message := "Could not parse dap version. Value given: ".toList ++ v
  let some ⟨major, false, rest⟩ := extract ⟨32, true⟩ v | throw .undefined
  let dot :: rest := rest.dropWhile Numeral.isspace | throw .undefined
  let minor := ((extract ⟨32, true⟩ rest).map Extracted.value).getD (-1)
  if major = -1 ∨ minor = -1 ∨ dot ≠ '.' then throw (.internalErr message)
  return { dmr with
    d_dap_version := v, d_dap_major := major, d_dap_minor := minor
    d_namespace := if major = 4 then c_dap40_namespace else "" }

/-- The attributes of a variable or a group, a new table when there is none. -/
def attributes (id : Nat) (dmr : DMR) : Nat × DMR :=
  match (dmr.objects[id]?).bind Object.d_attributes with
  | some table => (table, dmr)
  | none =>
    (dmr.tables.length, { dmr with
      objects := dmr.objects.modify id fun o => { o with d_attributes := some dmr.tables.length }
      tables := dmr.tables ++ [[]] })

def modifyTable (t : Table) (f : List D4Attribute → List D4Attribute) (dmr : DMR) : DMR :=
  { dmr with tables := dmr.tables.modify t.table (D4Attributes.modifyAt t.place f) }

/-- `add_attribute_nocopy` of a new container, with a pointer to the attributes in it. -/
def add_container (t : Table) (name : Name) (dmr : DMR) : Table × DMR :=
  let here := ((dmr.tables[t.table]?).bind (D4Attributes.at? · t.place)).getD []
  (⟨t.table, t.place ++ [here.length]⟩, dmr.modifyTable t (· ++ [.new name .attr_container_c]))

def add_dim_nocopy (group : Place) (name : Name) (size : Nat) (dmr : DMR) : DMR :=
  { dmr with
    heap := { dmr.heap with dims := dmr.heap.dims ++ [.declared name size] }
    dim_parents := dmr.dim_parents ++ [group]
    root := D4Group.modifyAt group (D4Group.add_dim dmr.heap.dims.length) dmr.root }

def add_enum_nocopy (group : Place) (e : EnumDef) (dmr : DMR) : DMR :=
  { dmr with
    enums := dmr.enums ++ [{ e with d_parent := some group }]
    root := D4Group.modifyAt group (D4Group.add_enum ⟨dmr.enums.length, e.d_name⟩) dmr.root }

def add_group_var (group : Place) (v : BaseType) (dmr : DMR) : DMR :=
  { dmr with root := D4Group.modifyAt group (D4Group.add_var v) dmr.root }

/-- `NewVariable(dods_group_c, name)`, and `add_group_nocopy`. -/
def add_group_nocopy (parent : Place) (name : Name) (dmr : DMR) : Nat × Place × DMR :=
  let id := dmr.objects.length
  let index := ((D4Group.at? dmr.root parent).map (·.groups.length)).getD 0
  (id, parent ++ [index], { dmr with
    objects := dmr.objects ++ [⟨dods_group_c, none, none⟩]
    root := D4Group.modifyAt parent (D4Group.add_group (.mk id name [] [] [] [])) dmr.root })

/-- `NewVariable` of a variable that is not an array. -/
def NewVariable (t : Typ) (name : Name) (dmr : DMR) : BaseType × DMR :=
  let id := dmr.objects.length
  let btp : BaseType :=
    if t = dods_structure_c then .constructor id name .dods_structure_c []
    else if t = dods_sequence_c then .constructor id name .dods_sequence_c []
    else .simple id name
  (btp, { dmr with objects := dmr.objects ++ [⟨t, none, none⟩] })

def set_enumeration (id enum_def : Nat) (dmr : DMR) : DMR :=
  { dmr with objects := dmr.objects.modify id fun o => { o with d_enum_def := some enum_def } }

def modifyArray (decl : Nat) (f : Array → Array) (dmr : DMR) : DMR :=
  { dmr with heap := { dmr.heap with arrays := dmr.heap.arrays.modify decl f } }

end DMR

/-- `Array::append_dim`, with the dimension that is made. -/
def Array.append_dim (d : Dimension) (a : Array) : Array :=
  let shape := a.shape ++ [d]
  { a with shape, length := Dap2.Array.product (shape.map Dimension.toDimension) }

def Array.add_map (m : D4Map) (a : Array) : Array := { a with maps := a.maps ++ [m] }

namespace BaseType

def set_name (name : Name) : BaseType → BaseType
  | .simple id _ => .simple id (www2id name)
  | .array id _ decl proto => .array id (www2id name) decl proto
  | .constructor id _ kind vars => .constructor id (www2id name) kind vars

/-- `Vector::add_var_nocopy`, for the array with the name. -/
def template (name : Name) (v : BaseType) : Name × BaseType :=
  if v.name = [] then (name, set_name name v) else (www2id v.name, v)

/-- `add_var_nocopy` of an array, a structure or a sequence. -/
def add_var_nocopy (v : BaseType) (dmr : DMR) : BaseType → Except Failure (BaseType × DMR)
  | .simple .. => throw (.internalErr "BaseType::add_var_nocopy unimplemented".toList)
  | .constructor id name kind vars => return (.constructor id name kind (vars ++ [v]), dmr)
  | .array id name decl _ =>
    match v with
    | .array _ _ decl' proto' =>
      let (name, proto) := template name proto'
      let shape := ((dmr.heap.arrays[decl']?).map Array.shape).getD []
      let append := fun a => shape.foldl (fun a d => Array.append_dim (.ofSize d.size (www2id d.name)) a) a
      return (.array id name decl proto, dmr.modifyArray decl append)
    | v =>
      let (name, proto) := template name v
      return (.array id name decl proto, dmr)

/-- "Make the top BaseType* an array": a new array gets the variable for its template, and its attributes. -/
def make_array (b : BaseType) (dmr : DMR) : BaseType × DMR :=
  match b with
  | .array id name decl proto => (.array id name decl proto, dmr)
  | b =>
    let (table, dmr) := dmr.attributes b.id
    let (name, proto) := template b.name b
    (.array dmr.objects.length name dmr.heap.arrays.length proto, { dmr with
      heap := { dmr.heap with arrays := dmr.heap.arrays ++ [⟨[], -1, []⟩] }
      objects := (dmr.objects.modify b.id fun o => { o with d_attributes := none }) ++
        [⟨dods_array_c, none, some table⟩] })

end BaseType

end Libdap.Dap4.Dmr
