import Libdap.Dap4.DmrParser
import Libdap.Foundation.Descent

/-! # What a DMR document says

The elements of a document one inside of the other, as libxml2 reports them, and the DMR that
is made when one goes down from the `Dataset`. An attribute of a group goes to the table that
was opened last: a group that comes before it takes it. Some elements end another one when they
stand in it, and then there is no telling: one of DAP4 in an element that is passed over, or in
one without content.
-/

namespace Libdap.Dap4.Dmr

open Typ Descent

inductive Xml where
  | element (localname : String) (nsPrefix URI : Option String) (namespaces : List (String × String))
      (attributes : List (String × XMLAttribute)) (content : List Xml)
  | characters (ch : Name)
  | ignorableWhitespace (ch : Name)
  | cdataBlock (value : Name)

mutual

def Xml.events : Xml → List Event
  | .element localname nsPrefix URI namespaces attributes content =>
    .startElement localname nsPrefix URI namespaces attributes ::
      (eventsIn content ++ [.endElement localname nsPrefix URI])
  | .characters ch => [.characters ch]
  | .ignorableWhitespace ch => [.ignorableWhitespace ch]
  | .cdataBlock value => [.cdataBlock value]

def eventsIn : List Xml → List Event
  | [] => []
  | x :: xs => x.events ++ eventsIn xs

end

/-- The element is one of DAP4. -/
def dap4 (URI : Option String) : Prop := URI.getD "" = DMR.c_dap40_namespace

instance (URI : Option String) : Decidable (dap4 URI) := inferInstanceAs (Decidable (_ = _))

mutual

/-- What has no meaning where it is. -/
def pass_over : Xml → Descent Unit
  | .element _ _ URI _ _ content => if dap4 URI then throw .misplaced else pass_all content
  | .characters _ | .ignorableWhitespace _ => pure ()
  | .cdataBlock _ => throw .failed

def pass_all : List Xml → Descent Unit
  | [] => pure ()
  | x :: xs => do
    pass_over x
    pass_all xs

end

/-! ## Attributes -/

/-- The text of a `Value`. -/
def value_text : List Xml → Name → Descent Name
  | [], text => pure text
  | .characters ch :: xs, text => value_text xs (text ++ ch)
  | x :: xs, text => do
    pass_over x
    value_text xs text

mutual

/-- The text that an `OtherXML` attribute gets from what is in it. -/
def other_text : Xml → Kept → Name → Descent (Kept × Name)
  | .element localname nsPrefix URI namespaces attributes content, k, text => do
    if dap4 URI then
      if localname = "Attribute" ∧ URI = some k.root_ns then throw .misplaced
      else
        let namespace_table := namespaces.foldl (fun m n => insertKeyed Prod.fst n m) k.namespace_table
        let shown := if namespaces = [] then [] else namespace_table
        let (k, text) ← other_texts content { k with namespace_table }
          (text ++ Parser.start_tag localname nsPrefix shown (.ofAttributes attributes))
        return (k, text ++ ("</".toList ++ ((nsPrefix.map fun pre => pre.toList ++ ":".toList).getD [] ++
          (localname.toList ++ ">".toList))))
    else
      pass_all content
      return (k, text)
  | .characters ch, k, text | .ignorableWhitespace ch, k, text | .cdataBlock ch, k, text => pure (k, text ++ ch)

def other_texts : List Xml → Kept → Name → Descent (Kept × Name)
  | [], k, text => pure (k, text)
  | x :: xs, k, text => do
    let (k, text) ← other_text x k text
    other_texts xs k text

end

/-- The value goes to the attribute whose start was the last. -/
def Kept.add_value (t : Table) (value : Name) (k : Kept) : Kept :=
  { k with dmr := k.dmr.modifyTable t (D4Attributes.add_value k.dods_attr_name k.dods_attr_type value) }

mutual

/-- An `Attribute`, for the table on top. -/
def attribute_element (t : Table) (attributes : List (String × XMLAttribute)) (content : List Xml) (k : Kept) : Descent Kept := do
  let m := XMLAttrMap.ofAttributes attributes
  match m.value? "name", m.value? "type" with
  | some name, some type =>
    if type = "Container".toList then
      let (child, dmr) := k.dmr.add_container t name
      container child content { k with dmr }
    else if type = "OtherXML".toList then
      let (k, text) ← other_texts content { k with dods_attr_name := name, dods_attr_type := type } []
      return k.add_value t text
    else values t content { k with dods_attr_name := name, dods_attr_type := type }
  | _, _ => throw .failed

def container (t : Table) : List Xml → Kept → Descent Kept
  | [], k => pure k
  | .element localname _ URI _ attributes content :: xs, k => do
    if dap4 URI then
      if localname = "Attribute" then container t xs (← attribute_element t attributes content k) else throw .failed
    else
      pass_all content
      container t xs k
  | x :: xs, k => do
    pass_over x
    container t xs k

def values (t : Table) : List Xml → Kept → Descent Kept
  | [], k => pure k
  | .element localname _ URI _ attributes content :: xs, k => do
    if dap4 URI then
      if localname = "Attribute" then values t xs (← attribute_element t attributes content k)
      else if localname = "Value" then values t xs (k.add_value t (← value_text content []))
      else throw .failed
    else
      pass_all content
      values t xs k
  | x :: xs, k => do
    pass_over x
    values t xs k

end

/-! ## Variables -/

/-- An Enum has the enumeration that its path leads to. -/
def enum_variable (group : Place) (t : Typ) (id : Nat) (m : XMLAttrMap) (dmr : DMR) : Descent DMR := do
  if t = dods_enum_c then
    if (m.value? "enum").isNone then throw .failed
    else
      let enum_def ← need (Parser.enumeration (pure group) m dmr)
      return dmr.set_enumeration id enum_def.id
  else return dmr

/-- A `Dim` of a variable, which is an array then. -/
def dim_element (group : Place) (m : XMLAttrMap) (b : BaseType) (dmr : DMR) : Descent (BaseType × DMR) := do
  if (m.value? "size").isSome = (m.value? "name").isSome then throw .failed
  else
    match BaseType.make_array b dmr with
    | (.array id name decl proto, dmr) =>
      let d ← need (Parser.dimension (pure group) m name dmr)
      return (.array id name decl proto, dmr.modifyArray decl (Array.append_dim d))
    | _ => throw .failed

/-- A `Map` of a variable, which is an array then. -/
def map_element (group : Place) (strict : Bool) (m : XMLAttrMap) (b : BaseType) (dmr : DMR) :
    Descent (BaseType × DMR) := do
  if (m.value? "name").isNone then throw .failed
  else
    match BaseType.make_array b dmr with
    | (.array id name decl proto, dmr) =>
      let found ← need (Parser.d4map (pure group) strict m name dmr)
      return (.array id name decl proto, dmr.modifyArray decl (Array.add_map found))
    | _ => throw .failed

/-- What the end tag of a variable adds it with. -/
def add_member (t : Typ) : BaseType → DMR → BaseType → Result (BaseType × DMR) :=
  if is_simple_type t then Parser.add_simple else BaseType.add_var_nocopy

mutual

/-- A variable in a group. -/
def variable_element (group : Place) (t : Typ) (attributes : List (String × XMLAttribute)) (content : List Xml)
    (k : Kept) : Descent (BaseType × Kept) := do
  let m := XMLAttrMap.ofAttributes attributes
  let some name := m.value? "name" | throw .failed
  let (btp, dmr) := k.dmr.NewVariable t name
  let dmr ← enum_variable group t btp.id m dmr
  let (table, dmr) := dmr.attributes btp.id
  members group (!is_simple_type t) ⟨table, []⟩ content btp { k with dmr }

/-- The content of a variable; a constructor has variables in it. -/
def members (group : Place) (constructor : Bool) (t : Table) : List Xml → BaseType → Kept → Descent (BaseType × Kept)
  | [], btp, k => pure (btp, k)
  | .element localname _ URI _ attributes content :: xs, btp, k => do
    if dap4 URI then
      if constructor ∧ (Parser.variable_state (get_type localname)).isSome then
        let (v, k) ← variable_element group (get_type localname) attributes content k
        let (btp, dmr) ← need (add_member (get_type localname) v k.dmr btp)
        members group constructor t xs btp { k with dmr }
      else if localname = "Attribute" then
        members group constructor t xs btp (← attribute_element t attributes content k)
      else if localname = "Dim" then
        let (btp, dmr) ← dim_element group (.ofAttributes attributes) btp k.dmr
        pass_all content
        members group constructor t xs btp { k with dmr }
      else if localname = "Map" then
        let (btp, dmr) ← map_element group k.d_strict (.ofAttributes attributes) btp k.dmr
        pass_all content
        members group constructor t xs btp { k with dmr }
      else throw .failed
    else
      pass_all content
      members group constructor t xs btp k
  | x :: xs, btp, k => do
    pass_over x
    members group constructor t xs btp k

end

/-! ## Groups -/

/-- The constants of an enumeration. -/
def enum_consts : List Xml → EnumDef → Descent EnumDef
  | [], e => pure e
  | .element localname _ URI _ attributes content :: xs, e => do
    if dap4 URI then
      if localname = "EnumConst" then
        let m := XMLAttrMap.ofAttributes attributes
        let some name := m.value? "name" | throw .failed
        let some value := (m.value? "value").bind Parser.enum_value | throw .failed
        if is_valid_enum_value e.d_type value then
          pass_all content
          enum_consts xs { e with d_tuples := e.d_tuples ++ [(name, value)] }
        else throw .failed
      else throw .failed
    else
      pass_all content
      enum_consts xs e
  | x :: xs, e => do
    pass_over x
    enum_consts xs e

/-- An `Enumeration`, of an integer type. -/
def enum_element (group : Place) (m : XMLAttrMap) (content : List Xml) (dmr : DMR) : Descent DMR := do
  let some name := m.value? "name" | throw .failed
  let some basetype := m.value? "basetype" | throw .failed
  let t := get_type (String.ofList basetype)
  if is_integer_type t then
    return dmr.add_enum_nocopy group (← enum_consts content ⟨name, t, [], none⟩)
  else throw .failed

/-- A `Dimension`. -/
def dimension_element (group : Place) (m : XMLAttrMap) (content : List Xml) (dmr : DMR) : Descent DMR := do
  let some name := m.value? "name" | throw .failed
  let some size := (m.value? "size").bind set_size | throw .failed
  pass_all content
  return dmr.add_dim_nocopy group name size

/-- The content of a group, for the table that was opened last, with the one that is that afterwards. -/
def group_content (group : Place) : List Xml → Table → Kept → Descent (Table × Kept)
  | [], t, k => pure (t, k)
  | .element localname _ URI _ attributes content :: xs, t, k => do
    if dap4 URI then
      let m := XMLAttrMap.ofAttributes attributes
      if localname = "Enumeration" then
        group_content group xs t { k with dmr := ← enum_element group m content k.dmr }
      else if localname = "Dimension" then
        group_content group xs t { k with dmr := ← dimension_element group m content k.dmr }
      else if localname = "Group" then
        let some name := m.value? "name" | throw .failed
        let (id, place, dmr) := k.dmr.add_group_nocopy group name
        let (table, dmr) := dmr.attributes id
        let (t, k) ← group_content place content ⟨table, []⟩ { k with dmr }
        group_content group xs t k
      else if (Parser.variable_state (get_type localname)).isSome then
        let (v, k) ← variable_element group (get_type localname) attributes content k
        group_content group xs t { k with dmr := k.dmr.add_group_var group v }
      else if localname = "Attribute" then
        group_content group xs t (← attribute_element t attributes content k)
      else throw .failed
    else
      pass_all content
      group_content group xs t k
  | x :: xs, t, k => do
    pass_over x
    group_content group xs t k

/-- The DMR that a document describes. -/
def document (strict : Bool) (dmr : DMR) : Xml → Descent DMR
  | .element localname _ URI _ attributes content => do
    if dap4 URI then
      if localname = "Dataset" then
        let (table, dmr) := dmr.attributes dmr.root.id
        let m := XMLAttrMap.ofAttributes attributes
        let some name := m.value? "name" | throw .failed
        let dmr ← need (Parser.set_versions (URI.getD "") m { dmr with d_name := name })
        let (_, k) ← group_content [] content ⟨table, []⟩ ⟨dmr, strict, URI.getD "", [], [], []⟩
        return k.dmr
      else throw .failed
    else
      pass_all content
      throw .failed
  | _ => throw .failed

end Libdap.Dap4.Dmr
