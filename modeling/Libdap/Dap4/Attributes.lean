import Mathlib.Tactic.Common

/-! # D4Attributes

An attribute has a name, a type, and values or, when it is a container, attributes of its
own.
-/

namespace Libdap.Dap4

inductive D4AttributeType where
  | attr_null_c
  | attr_byte_c
  | attr_int16_c
  | attr_uint16_c
  | attr_int32_c
  | attr_uint32_c
  | attr_float32_c
  | attr_float64_c
  | attr_str_c
  | attr_url_c
  | attr_int8_c
  | attr_uint8_c
  | attr_int64_c
  | attr_uint64_c
  | attr_enum_c
  | attr_opaque_c
  | attr_container_c
  | attr_otherxml_c
  deriving Repr, DecidableEq

/-- An attribute: `d_name`, `d_type`, `d_attributes` and `d_values`. -/
inductive D4Attribute where
  | mk (name : List Char) (type : D4AttributeType) (attributes : List D4Attribute) (values : List (List Char))
  deriving Repr

namespace D4Attribute

/-- The constructor, without any values. -/
def new (name : List Char) (type : D4AttributeType) : D4Attribute := mk name type [] []

def addValue : D4Attribute → List Char → D4Attribute
  | mk name type attributes values, value => mk name type attributes (values ++ [value])

end D4Attribute

end Libdap.Dap4
