import Libdap.Dap4.DmrStore
import Libdap.Foundation.KeyedSet
import Mathlib.Data.String.Basic

/-! # The SAX parser of a DMR

`D4ParserSax2`. Its callbacks are given one start tag, end tag or text after the other; where
they are in the document is on the stack of the states, and what they are at on three more.
An error is a state that is pushed. Errors are kept without the line that they are at.
-/

namespace Libdap.Dap4.Dmr

open Typ

inductive ParseState where
  | parser_start
  | inside_dataset
  | inside_group
  | inside_attribute_container
  | inside_attribute
  | inside_attribute_value
  | inside_other_xml_attribute
  | inside_enum_def
  | inside_enum_const
  | inside_dim_def
  | inside_simple_type
  | inside_dim
  | inside_map
  | inside_constructor
  | not_dap4_element
  | parser_unknown
  | parser_error
  | parser_fatal_error
  | parser_end
  deriving Repr, DecidableEq

structure XMLAttribute where
  nsPrefix : String
  nsURI : String
  value : Name
  deriving Repr, DecidableEq

/-- `XMLAttrMap`. -/
abbrev XMLAttrMap := List (String × XMLAttribute)

/-- The callbacks between the start and the end of the document. -/
inductive Event where
  | startElement (localname : String) (nsPrefix URI : Option String) (namespaces : List (String × String))
      (attributes : List (String × XMLAttribute))
  | endElement (localname : String) (nsPrefix URI : Option String)
  | characters (ch : Name)
  | ignorableWhitespace (ch : Name)
  | cdataBlock (value : Name)
  | error (message : Name)
  | fatalError (message : Name)
  deriving Repr, DecidableEq

/-- What is kept from one element to the next. -/
structure Kept where
  dmr : DMR
  d_strict : Bool
  root_ns : String
  dods_attr_name : Name
  dods_attr_type : Name
  namespace_table : List (String × String)
  deriving Repr

structure Parser extends Kept where
  s : List ParseState
  btp_stack : List BaseType
  grp_stack : List Place
  d_attrs_stack : List Table
  d_enum_def : Option EnumDef
  d_dim_def : Option (Name × Nat)
  other_xml : Name
  other_xml_depth : Nat
  char_data : Name
  xml_attrs : XMLAttrMap
  d_error_msg : List Name
  deriving Repr

abbrev Result := Except Failure

/-- `XMLAttrMap::find`, for the value. -/
def XMLAttrMap.value? (m : XMLAttrMap) (attr : String) : Option Name := (m.find? (·.1 = attr)).map (·.2.value)

/-- The map of the attributes of an element: of two with one name the first. -/
def XMLAttrMap.ofAttributes (attributes : List (String × XMLAttribute)) : XMLAttrMap :=
  attributes.foldl (fun m a => insertKeyed Prod.fst a m) []

/-- The lookup of a path, from the root when a slash is in front. -/
def lookup {α : Type} (find : D4Group → Name → Except String (Option α)) (root group : D4Group) (path : Name) :
    Result (Option α) :=
  match find (if path.head? = some '/' then root else group) path with
  | .ok found => .ok found
  | .error message => .error (.internalErr message.toList)

namespace Parser

def push_state (state : ParseState) (p : Parser) : Parser := { p with s := state :: p.s }
def push_basetype (btp : BaseType) (p : Parser) : Parser := { p with btp_stack := btp :: p.btp_stack }
def push_group (grp : Place) (p : Parser) : Parser := { p with grp_stack := grp :: p.grp_stack }
def push_attributes (attr : Table) (p : Parser) : Parser := { p with d_attrs_stack := attr :: p.d_attrs_stack }

/-- The top of a stack and what is below it. -/
def top {α : Type} : List α → Result (α × List α)
  | [] => throw .undefined
  | a :: rest => return (a, rest)

def pop_state (p : Parser) : Result Parser := do
  let (_, s) ← top p.s
  return { p with s }

def pop_attributes (p : Parser) : Result Parser := do
  let (_, d_attrs_stack) ← top p.d_attrs_stack
  return { p with d_attrs_stack }

def pop_group (p : Parser) : Result Parser := do
  let (_, grp_stack) ← top p.grp_stack
  return { p with grp_stack }

/-- The message goes through a buffer. -/
def message (msg : Name) (p : Parser) : Parser := { p with d_error_msg := p.d_error_msg ++ [msg.take 1023] }

def dmr_error (msg : Name) (p : Parser) : Parser := (p.push_state .parser_error).message msg
def dmr_fatal_error (msg : Name) (p : Parser) : Parser := (p.push_state .parser_fatal_error).message msg

/-! ## Start tags -/

def is_not (name tag : String) : Bool := name ≠ tag

def transfer_xml_attrs (attributes : List (String × XMLAttribute)) (p : Parser) : Parser :=
  { p with xml_attrs := .ofAttributes attributes }

def transfer_xml_ns (namespaces : List (String × String)) (p : Parser) : Parser :=
  { p with namespace_table := namespaces.foldl (fun m n => insertKeyed Prod.fst n m) p.namespace_table }

def check_attribute (attr : String) (p : Parser) : Bool := (p.xml_attrs.value? attr).isSome

def value (attr : String) (p : Parser) : Name := (p.xml_attrs.value? attr).getD []

/-- Whether the attribute is there, with the error when it is not. -/
def check_required_attribute (attr : String) (p : Parser) : Bool × Parser :=
  if p.check_attribute attr then (true, p)
  else (false, p.dmr_error ("Required attribute '".toList ++ attr.toList ++ "' not found.".toList))

/-- `check_required_attribute(first) && check_required_attribute(second)`. -/
def check_both (first second : String) (p : Parser) : Bool × Parser :=
  match p.check_required_attribute first with
  | (true, p) => p.check_required_attribute second
  | (false, p) => (false, p)

def dim_def (p : Parser) : Name × Nat := p.d_dim_def.getD ([], 0)
def enum_def (p : Parser) : EnumDef := p.d_enum_def.getD ⟨[], dods_null_c, [], none⟩

def process_dimension_def (name : String) (attrs : List (String × XMLAttribute)) (p : Parser) : Bool × Parser :=
  if is_not name "Dimension" then (false, p)
  else
    match (p.transfer_xml_attrs attrs).check_both "name" "size" with
    | (false, p) =>
      (false, p.dmr_error "The required attribute 'name' or 'size' was missing from a Dimension element.".toList)
    | (true, p) =>
      match set_size (p.value "size") with
      | none =>
        (false, { p with d_dim_def := some (p.value "name", p.dim_def.2) }.dmr_error
          ("Invalid value '".toList ++ p.value "size" ++ "' passed to D4Dimension::set_size.".toList))
      | some size => (true, { p with d_dim_def := some (p.value "name", size) })

/-- The top variable is made an array. -/
def array_on_top (p : Parser) : Result (Name × Nat × Parser) := do
  let (b, btp_stack) ← top p.btp_stack
  match BaseType.make_array b p.dmr with
  | (.array id name decl proto, dmr) =>
    return (name, decl, { p with dmr, btp_stack := .array id name decl proto :: btp_stack })
  | _ => throw .undefined

/-- The group on top of the stack. -/
def top_place (p : Parser) : Result Place := do
  let (place, _) ← top p.grp_stack
  return place

def group_at (root : D4Group) (place : Place) : Result D4Group :=
  match D4Group.at? root place with
  | some group => return group
  | none => throw .undefined

/-- The dimension that a `Dim` appends to an array. -/
def dimension (place : Result Place) (m : XMLAttrMap) (array : Name) (dmr : DMR) : Result Dimension := do
  match m.value? "size" with
  | some size => return .ofSize (atoi size) []
  | none =>
    let name := (m.value? "name").getD []
    let group ← group_at dmr.root (← place)
    let dim ← lookup (Dap4.D4Group.find_dim dmr.heap) dmr.root group name
    match dim.bind fun dim => (dmr.heap.dims[dim]?).map (Dimension.ofD4 dim) with
    | none =>
      throw (.error ("The dimension '".toList ++ name ++ "' was not found while parsing the variable '".toList ++ array ++
        "'.".toList))
    | some d => return d

def process_dimension (name : String) (attrs : List (String × XMLAttribute)) (p : Parser) : Result (Bool × Parser) := do
  if is_not name "Dim" then return (false, p)
  let p := p.transfer_xml_attrs attrs
  if p.check_attribute "size" && p.check_attribute "name" then
    return (false, p.dmr_error "Only one of 'size' and 'name' are allowed in a Dim element, but both were used.".toList)
  if !(p.check_attribute "size" || p.check_attribute "name") then
    return (false, p.dmr_error "Either 'size' or 'name' must be used in a Dim element.".toList)
  let (array, decl, p) ← p.array_on_top
  let d ← dimension p.top_place p.xml_attrs array p.dmr
  return (true, { p with dmr := p.dmr.modifyArray decl (Array.append_dim d) })

/-- The address of an array that is found. -/
def address : Option BaseType → Option Nat
  | some (.array _ _ decl _) => some decl
  | _ => none

/-- The map that a `Map` adds to an array. A path without a slash in front is one from the group. -/
def d4map (place : Result Place) (strict : Bool) (m : XMLAttrMap) (array : Name) (dmr : DMR) : Result D4Map := do
  let name := (m.value? "name").getD []
  let place ← place
  let group ← group_at dmr.root place
  let map_name :=
    if name.head? = some '/' then name else Dap4.D4Group.FQN (D4Group.names dmr.root place) ++ name
  let map_source := address (← lookup Dap4.D4Group.find_map_source dmr.root group map_name)
  if map_source.isNone && strict then
    throw (.error ("The Map '".toList ++ map_name ++ "' was not found while parsing the variable '".toList ++ array ++
      "'.".toList))
  return ⟨map_name, map_source⟩

def process_map (name : String) (attrs : List (String × XMLAttribute)) (p : Parser) : Result (Bool × Parser) := do
  if is_not name "Map" then return (false, p)
  let p := p.transfer_xml_attrs attrs
  if !p.check_attribute "name" then
    return (false, p.dmr_error "The 'name' attribute must be used in a Map element.".toList)
  let (array, decl, p) ← p.array_on_top
  let m ← d4map p.top_place p.d_strict p.xml_attrs array p.dmr
  return (true, { p with dmr := p.dmr.modifyArray decl (Array.add_map m) })

def process_group (name : String) (attrs : List (String × XMLAttribute)) (p : Parser) : Result (Bool × Parser) := do
  if is_not name "Group" then return (false, p)
  match (p.transfer_xml_attrs attrs).check_required_attribute "name" with
  | (false, p) => return (false, p.dmr_error "The required attribute 'name' was missing from a Group element.".toList)
  | (true, p) =>
    let (parent, _) ← top p.grp_stack
    let (id, grp, dmr) := p.dmr.add_group_nocopy parent (p.value "name")
    let (table, dmr) := dmr.attributes id
    return (true, ({ p with dmr }.push_group grp).push_attributes ⟨table, []⟩)

def process_attribute (name : String) (attrs : List (String × XMLAttribute)) (p : Parser) : Result (Bool × Parser) := do
  if is_not name "Attribute" then return (false, p)
  match (p.transfer_xml_attrs attrs).check_both "name" "type" with
  | (false, p) =>
    return (false, p.dmr_error
      "The required attribute 'name' or 'type' was missing from an Attribute element.".toList)
  | (true, p) =>
    if p.value "type" = "Container".toList then
      let p := p.push_state .inside_attribute_container
      let (tos, _) ← top p.d_attrs_stack
      let (child, dmr) := p.dmr.add_container tos (p.value "name")
      return (true, { p with dmr }.push_attributes child)
    else if p.value "type" = "OtherXML".toList then
      return (true, { p.push_state .inside_other_xml_attribute with
        dods_attr_name := p.value "name", dods_attr_type := p.value "type" })
    else
      return (true, { p.push_state .inside_attribute with
        dods_attr_name := p.value "name", dods_attr_type := p.value "type" })

def process_enum_def (name : String) (attrs : List (String × XMLAttribute)) (p : Parser) : Bool × Parser :=
  if is_not name "Enumeration" then (false, p)
  else
    match (p.transfer_xml_attrs attrs).check_both "name" "basetype" with
    | (false, p) =>
      (false, p.dmr_error "The required attribute 'name' or 'basetype' was missing from an Enumeration element.".toList)
    | (true, p) =>
      let t := get_type (String.ofList (p.value "basetype"))
      if is_integer_type t then
        (true, { p with d_enum_def := some { p.enum_def with d_name := p.value "name", d_type := t } })
      else
        (false, p.dmr_error ("The Enumeration '".toList ++ p.value "name" ++
          "' must have an integer type, instead the type '".toList ++ p.value "basetype" ++ "' was used.".toList))

/-- The value of a constant, when one is read. -/
def enum_value (s : Name) : Option Int :=
  match extract ⟨64, true⟩ s with
  | some ⟨value, false, _⟩ => some value
  | _ => none

def process_enum_const (name : String) (attrs : List (String × XMLAttribute)) (p : Parser) : Bool × Parser :=
  if is_not name "EnumConst" then (false, p)
  else
    match (p.transfer_xml_attrs attrs).check_both "name" "value" with
    | (false, p) =>
      (false, p.dmr_error "The required attribute 'name' or 'value' was missing from an EnumConst element.".toList)
    | (true, p) =>
      match enum_value (p.value "value") with
      | none =>
        (true, p.dmr_error ("Expected an integer value for an Enumeration constant, got '".toList ++ p.value "value" ++
          "' instead.".toList))
      | some value =>
        let e := p.enum_def
        if is_valid_enum_value e.d_type value then
          (true, { p with d_enum_def := some { e with d_tuples := e.d_tuples ++ [(p.value "name", value)] } })
        else
          (true, { p with d_enum_def := some e }.dmr_error ("In an Enumeration constant, the value '".toList ++
            p.value "value" ++ "' cannot fit in a variable of type '".toList ++
              ((D4type_name e.d_type).getD "").toList ++ "'.".toList))

/-- The enumeration of an Enum. Without one `set_enumeration` reads from a null pointer. -/
def enumeration (place : Result Place) (m : XMLAttrMap) (dmr : DMR) : Result D4EnumDef := do
  let group ← group_at dmr.root (← place)
  match ← lookup Dap4.D4Group.find_enum_def dmr.root group ((m.value? "enum").getD []) with
  | none => throw .undefined
  | some enum_def => return enum_def

/-- Of the variables only an Enum has one. -/
def set_enumeration (t : Typ) (id : Nat) (p : Parser) : Result Parser :=
  if t = dods_enum_c then
    match p.check_required_attribute "enum" with
    | (false, p) => return p
    | (true, p) => do
      let enum_def ← enumeration p.top_place p.xml_attrs p.dmr
      return { p with dmr := p.dmr.set_enumeration id enum_def.id }
  else return p

def process_variable_helper (t : Typ) (state : ParseState) (attrs : List (String × XMLAttribute)) (p : Parser) :
    Result Parser := do
  match (p.transfer_xml_attrs attrs).check_required_attribute "name" with
  | (false, p) => return p
  | (true, p) =>
    let (btp, dmr) := p.dmr.NewVariable t (p.value "name")
    let p ← { p with dmr }.set_enumeration t btp.id
    let (table, dmr) := p.dmr.attributes btp.id
    return (({ p with dmr }.push_basetype btp).push_attributes ⟨table, []⟩).push_state state

/-- The state in a variable of a type; other elements are no variables. -/
def variable_state (t : Typ) : Option ParseState :=
  if is_simple_type t then some .inside_simple_type
  else if t = dods_structure_c ∨ t = dods_sequence_c then some .inside_constructor
  else none

def process_variable (name : String) (attrs : List (String × XMLAttribute)) (p : Parser) : Result (Bool × Parser) := do
  match variable_state (get_type name) with
  | none => return (false, p)
  | some state => return (true, ← p.process_variable_helper (get_type name) state attrs)

/-- What the attributes of a `Dataset` set in the DMR, but for its name. -/
def set_versions (root_ns : String) (m : XMLAttrMap) (dmr : DMR) : Result DMR := do
  let dmr ←
    match m.value? "dapVersion" with
    | some version => dmr.set_dap_version version
    | none => return dmr
  let dmr := { dmr with d_dmr_version := (m.value? "dmrVersion").getD dmr.d_dmr_version }
  let dmr := { dmr with d_request_xml_base := (m.value? "base").getD dmr.d_request_xml_base }
  return { dmr with d_namespace := if root_ns = "" then dmr.d_namespace else root_ns }

/-- The start of a `Dataset`. -/
def start_dataset (localname : String) (URI : Option String) (attributes : List (String × XMLAttribute)) (p : Parser) :
    Result Parser := do
  let p :=
    if is_not localname "Dataset" then
      p.dmr_error ("Expected DMR to start with a Dataset element; found '".toList ++ localname.toList ++ "' instead.".toList)
    else p
  let (found, p) := ({ p with root_ns := URI.getD "" }.transfer_xml_attrs attributes).check_required_attribute "name"
  let dmr := if found then { p.dmr with d_name := p.value "name" } else p.dmr
  let dmr ← set_versions p.root_ns p.xml_attrs dmr
  return ({ p with dmr }.push_group []).push_state .inside_dataset

/-- The text of a start tag in an `OtherXML` attribute, with the table of all namespaces so far when it has one of
    its own. -/
def start_tag (localname : String) (nsPrefix : Option String) (namespaces : List (String × String))
    (attributes : XMLAttrMap) : Name :=
  "<".toList ++ ((nsPrefix.map fun pre => pre.toList ++ ":".toList).getD [] ++ (localname.toList ++
    (namespaces.flatMap (fun n => " xmlns".toList ++ ((if n.1 = "" then [] else ":".toList ++ n.1.toList) ++
        ("=\"".toList ++ (n.2.toList ++ "\"".toList)))) ++
      (attributes.flatMap (fun a => " ".toList ++ ((if a.2.nsPrefix = "" then [] else a.2.nsPrefix.toList ++ ":".toList) ++
          (a.1.toList ++ ("=\"".toList ++ (a.2.value ++ "\"".toList))))) ++ ">".toList))))

def start_other_xml (localname : String) (nsPrefix : Option String) (namespaces : List (String × String))
    (attributes : List (String × XMLAttribute)) (p : Parser) : Parser :=
  let p := if namespaces = [] then p else p.transfer_xml_ns namespaces
  let p := if attributes = [] then p else p.transfer_xml_attrs attributes
  let shown := if namespaces = [] then [] else p.namespace_table
  { p with
    other_xml_depth := p.other_xml_depth + 1
    other_xml := p.other_xml ++ start_tag localname nsPrefix shown (.ofAttributes attributes) }

/-- The message of an element that has no place where it is. -/
def unexpected (expected localname : String) (p : Parser) : Parser :=
  p.dmr_error ("Expected ".toList ++ expected.toList ++ "; found '".toList ++ localname.toList ++ "' instead.".toList)

/-- The start of an element in a dataset or a group. -/
def start_in_group (name : String) (attrs : List (String × XMLAttribute)) (p : Parser) : Result Parser := do
  match p.process_enum_def name attrs with
  | (true, p) => return p.push_state .inside_enum_def
  | (false, p) =>
  match p.process_dimension_def name attrs with
  | (true, p) => return p.push_state .inside_dim_def
  | (false, p) =>
  match ← p.process_group name attrs with
  | (true, p) => return p.push_state .inside_group
  | (false, p) =>
  match ← p.process_variable name attrs with
  | (true, p) => return p
  | (false, p) =>
  match ← p.process_attribute name attrs with
  | (true, p) => return p
  | (false, p) => return p.unexpected "an Attribute, Enumeration, Dimension, Group or variable element" name

/-- The start of an element in a variable. -/
def start_in_variable (expected name : String) (attrs : List (String × XMLAttribute)) (p : Parser) : Result Parser := do
  match ← p.process_attribute name attrs with
  | (true, p) => return p
  | (false, p) =>
  match ← p.process_dimension name attrs with
  | (true, p) => return p.push_state .inside_dim
  | (false, p) =>
  match ← p.process_map name attrs with
  | (true, p) => return p.push_state .inside_map
  | (false, p) => return p.unexpected expected name

/-- The state in which an element is met. One of another namespace is known as such but after an error. -/
def outside (URI : Option String) (p : Parser) : Result (ParseState × Parser) := do
  let (state, _) ← top p.s
  if state ≠ .parser_error ∧ URI.getD "" ≠ DMR.c_dap40_namespace then
    return (.not_dap4_element, p.push_state .not_dap4_element)
  return (state, p)

def dmr_start_element (localname : String) (nsPrefix URI : Option String) (namespaces : List (String × String))
    (attributes : List (String × XMLAttribute)) (p : Parser) : Result Parser := do
  let (state, p) ← p.outside URI
  match state with
  | .parser_start => p.start_dataset localname URI attributes
  | .inside_dataset | .inside_group => p.start_in_group localname attributes
  | .inside_attribute_container =>
    match ← p.process_attribute localname attributes with
    | (true, p) => return p
    | (false, p) => return p.unexpected "an Attribute element" localname
  | .inside_attribute =>
    match ← p.process_attribute localname attributes with
    | (true, p) => return p
    | (false, p) =>
      if localname = "Value" then return p.push_state .inside_attribute_value
      else return p.unexpected "an 'Attribute' or 'Value' element" localname
  | .inside_other_xml_attribute => return p.start_other_xml localname nsPrefix namespaces attributes
  | .inside_enum_def =>
    match p.process_enum_const localname attributes with
    | (true, p) => return p.push_state .inside_enum_const
    | (false, p) => return p.unexpected "an 'EnumConst' element" localname
  | .inside_simple_type => p.start_in_variable "an 'Attribute', 'Dim' or 'Map' element" localname attributes
  | .inside_constructor =>
    match ← p.process_variable localname attributes with
    | (true, p) => return p
    | (false, p) => p.start_in_variable "an Attribute, Dim, Map or variable element" localname attributes
  | .parser_unknown => return p.push_state .parser_unknown
  | .inside_attribute_value | .inside_enum_const | .inside_dim_def | .inside_dim | .inside_map | .not_dap4_element
  | .parser_error | .parser_fatal_error | .parser_end => return p

/-! ## End tags -/

/-- The error when an end tag is not this one. -/
def expect_end (tag expected localname : String) (p : Parser) : Parser :=
  if is_not localname tag then p.unexpected expected localname else p

/-- The value goes to the attribute whose start was the last. -/
def add_value (value : Name) (p : Parser) : Result Parser := do
  let (attrs, _) ← top p.d_attrs_stack
  return { p with dmr := p.dmr.modifyTable attrs (D4Attributes.add_value p.dods_attr_name p.dods_attr_type value) }

/-- The variable on top is added to the one below it, or to the group. -/
def close_variable (add : BaseType → DMR → BaseType → Result (BaseType × DMR)) (localname : String) (p : Parser) :
    Result Parser := do
  let (btp, btp_stack) ← top p.btp_stack
  let p ← { p with btp_stack }.pop_attributes
  match p.btp_stack, p.grp_stack with
  | parent :: rest, _ =>
    let (parent, dmr) ← add btp p.dmr parent
    return { p with dmr, btp_stack := parent :: rest }
  | [], group :: _ => return { p with dmr := p.dmr.add_group_var group btp }
  | [], [] =>
    return p.dmr_fatal_error ("Both the Variable and Groups stacks are empty while closing a ".toList ++
      localname.toList ++ " element.".toList)

/-- A simple variable in an array goes to the template of that. -/
def add_simple (btp : BaseType) (dmr : DMR) : BaseType → Result (BaseType × DMR)
  | .array id name decl proto => do
    let (proto, dmr) ← BaseType.add_var_nocopy btp dmr proto
    return (.array id name decl proto, dmr)
  | parent => BaseType.add_var_nocopy btp dmr parent

/-- The end of an element in an `OtherXML` attribute. -/
def end_in_other_xml (localname : String) (nsPrefix : Option String) (p : Parser) : Parser :=
  if p.other_xml_depth = 0 then
    p.dmr_error ("Expected an OtherXML attribute to end! Instead I found '".toList ++ localname.toList ++ "'".toList)
  else
    { p with
      other_xml_depth := p.other_xml_depth - 1
      other_xml := p.other_xml ++ ("</".toList ++ ((nsPrefix.map fun pre => pre.toList ++ ":".toList).getD [] ++
        (localname.toList ++ ">".toList))) }

def end_other_xml (localname : String) (nsPrefix URI : Option String) (p : Parser) : Result Parser :=
  if localname = "Attribute" then
    match URI with
    | none => throw .undefined
    | some uri =>
      if p.root_ns = uri then do
        let p ← p.pop_state
        let p ← p.add_value p.other_xml
        return { p with other_xml := [] }
      else return p.end_in_other_xml localname nsPrefix
  else return p.end_in_other_xml localname nsPrefix

def dmr_end_element (localname : String) (nsPrefix URI : Option String) (p : Parser) : Result Parser := do
  match (← top p.s).1 with
  | .parser_start =>
    return p.dmr_fatal_error ("Unexpected state, inside start state while processing element '".toList ++
      localname.toList ++ "'.".toList)
  | .inside_dataset =>
    let p ← (p.expect_end "Dataset" "an end Dataset tag" localname).pop_state
    if (← top p.s).1 ≠ .parser_start then
      return p.dmr_fatal_error "Unexpected state, expected start state.".toList
    return (← p.pop_state).push_state .parser_end
  | .inside_group =>
    let p := p.expect_end "Group" "an end tag for a Group" localname
    let p :=
      if p.btp_stack ≠ [] ∨ p.grp_stack = [] then
        p.dmr_error "The document did not contain a valid root Group or contained unbalanced tags.".toList
      else p
    (← p.pop_group).pop_state
  | .inside_attribute_container =>
    (← (p.expect_end "Attribute" "an end Attribute tag" localname).pop_state).pop_attributes
  | .inside_attribute => (p.expect_end "Attribute" "an end Attribute tag" localname).pop_state
  | .inside_attribute_value =>
    let p ← (p.expect_end "Value" "an end value tag" localname).pop_state
    let p ← p.add_value p.char_data
    return { p with char_data := [] }
  | .inside_other_xml_attribute => p.end_other_xml localname nsPrefix URI
  | .inside_enum_def =>
    let p := p.expect_end "Enumeration" "an end Enumeration tag" localname
    let (group, _) ← top p.grp_stack
    { p with dmr := p.dmr.add_enum_nocopy group p.enum_def, d_enum_def := none }.pop_state
  | .inside_enum_const => (p.expect_end "EnumConst" "an end EnumConst tag" localname).pop_state
  | .inside_dim_def =>
    let p := p.expect_end "Dimension" "an end Dimension tag" localname
    let (group, _) ← top p.grp_stack
    { p with dmr := p.dmr.add_dim_nocopy group p.dim_def.1 p.dim_def.2, d_dim_def := none }.pop_state
  | .inside_simple_type =>
    if is_simple_type (get_type localname) then (← p.close_variable add_simple localname).pop_state
    else (p.unexpected "an end tag for a simple type" localname).pop_state
  | .inside_dim =>
    (if is_not localname "Dim" then
      p.dmr_fatal_error ("Expected an end Dim tag; found '".toList ++ localname.toList ++ "' instead.".toList)
    else p).pop_state
  | .inside_map =>
    (if is_not localname "Map" then
      p.dmr_fatal_error ("Expected an end Map tag; found '".toList ++ localname.toList ++ "' instead.".toList)
    else p).pop_state
  | .inside_constructor =>
    if localname ≠ "Structure" ∧ localname ≠ "Sequence" then
      return p.unexpected "an end tag for a constructor" localname
    (← p.close_variable BaseType.add_var_nocopy localname).pop_state
  | .not_dap4_element | .parser_unknown => p.pop_state
  | .parser_error | .parser_fatal_error | .parser_end => return p

/-! ## Texts -/

def dmr_get_characters (ch : Name) (p : Parser) : Parser :=
  match p.s.head? with
  | some .inside_attribute_value => { p with char_data := p.char_data ++ ch }
  | some .inside_other_xml_attribute => { p with other_xml := p.other_xml ++ ch }
  | _ => p

def dmr_ignoreable_whitespace (ch : Name) (p : Parser) : Parser :=
  match p.s.head? with
  | some .inside_other_xml_attribute => { p with other_xml := p.other_xml ++ ch }
  | _ => p

def dmr_get_cdata (value : Name) (p : Parser) : Parser :=
  match p.s.head? with
  | some .inside_other_xml_attribute => { p with other_xml := p.other_xml ++ value }
  | some .parser_unknown => p
  | _ => p.dmr_error "Found a CData block but none are allowed by DAP4.".toList

/-! ## The document -/

def handle (p : Parser) : Event → Result Parser
  | .startElement localname nsPrefix URI namespaces attributes =>
    p.dmr_start_element localname nsPrefix URI namespaces attributes
  | .endElement localname nsPrefix URI => p.dmr_end_element localname nsPrefix URI
  | .characters ch => return p.dmr_get_characters ch
  | .ignorableWhitespace ch => return p.dmr_ignoreable_whitespace ch
  | .cdataBlock value => return p.dmr_get_cdata value
  | .error message => return p.dmr_error message
  | .fatalError message => return p.dmr_fatal_error message

/-- A parser that is at the start of a document. -/
def start (strict : Bool) (dmr : DMR) : Parser where
  dmr
  d_strict := strict
  root_ns := ""
  dods_attr_name := []
  dods_attr_type := []
  namespace_table := []
  s := [.parser_start]
  btp_stack := []
  grp_stack := []
  d_attrs_stack := []
  d_enum_def := none
  d_dim_def := none
  other_xml := []
  other_xml_depth := 0
  char_data := []
  xml_attrs := []
  d_error_msg := []

def dmr_start_document (p : Parser) : Parser :=
  let (table, dmr) := p.dmr.attributes p.dmr.root.id
  { p with dmr, d_error_msg := [], char_data := [] }.push_attributes ⟨table, []⟩

def dmr_end_document (p : Parser) : Result Parser := do
  let p :=
    if (← top p.s).1 ≠ .parser_end then p.dmr_error "The document contained unbalanced tags.".toList else p
  let state := (← top p.s).1
  if state = .parser_error ∨ state = .parser_fatal_error then return p
  let p :=
    if p.btp_stack ≠ [] ∨ p.grp_stack = [] then
      p.dmr_error "The document did not contain a valid root Group or contained unbalanced tags.".toList
    else p
  (← p.pop_group).pop_attributes

/-- `cleanup_parse`, for a document that libxml2 finds well formed and valid. -/
def cleanup_parse (p : Parser) : Result DMR := do
  let state := (← top p.s).1
  let messages := (p.d_error_msg.intersperse ['\n']).flatten
  if state = .parser_error then throw (.error messages)
  if state = .parser_fatal_error then throw (.internalErr messages)
  return p.dmr

/-- `intern`, for what libxml2 reads in the document. -/
def intern (strict : Bool) (dmr : DMR) (events : List Event) : Result DMR := do
  let p ← events.foldlM handle (start strict dmr).dmr_start_document
  (← p.dmr_end_document).cleanup_parse

end Parser

end Libdap.Dap4.Dmr
