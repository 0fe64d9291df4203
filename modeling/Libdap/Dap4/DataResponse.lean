import Libdap.Dap4.Attributes
import Libdap.Foundation.Declared
import Libdap.Marshal.D4RoundTrip

/-! # The values of DAP4 groups on the wire

Scalars, arrays and Structures with no Sequence in them, in groups, as calls of the DAP4
marshaller and of the unmarshaller. No value has a length but strings and opaque data. A
group sends the groups in it and then its projected variables, with a checksum behind each;
a client keeps that as an attribute of the variable.
-/

namespace Libdap.Dap4.DataResponse

open Marshal D4RoundTrip D4StreamUnMarshaller

/-- The variables without members. An enumeration is a number of its type, an Url is a
    string, and what has elements of one octet is sent as octets. -/
inductive Leaf where
  | number (t : Number)
  | str
  | block
  | octets (length : Length)
  | numbers (t : Elem) (wide : t.width ≠ 1) (length : Length)
  | strings (length : Length)
  | blocks (length : Length)
  deriving DecidableEq

/-- A number in memory of some octets. -/
abbrev Word (width : Nat) := {n : Nat // n < 256 ^ width}

/-- What a string or a vector holds. -/
abbrev Text := {s : List UInt8 // s.length < 2 ^ 63}

namespace Leaf

def Value : Leaf → Type
  | number t => Word t.width
  | str | block => Text
  | octets length => Stored UInt8 length
  | numbers t _ length => Stored (Word t.width) length
  | strings length | blocks length => Stored Text length

/-- What a client holds. -/
def Result : Leaf → Type
  | number _ => Nat
  | str | block | octets _ => List UInt8
  | numbers _ _ _ => List Nat
  | strings length | blocks length => Stored (List UInt8) length

def result : (l : Leaf) → l.Value → l.Result
  | number _, n => n.val
  | str, s | block, s => s.val
  | octets _, v => v.elements
  | numbers _ _ _, v => v.elements.map Subtype.val
  | strings _, v | blocks _, v => .exactly (v.elements.map Subtype.val) (by rw [List.length_map, v.length])

end Leaf

theorem word_lt {width : Nat} (words : List (Word width)) : ∀ n ∈ words.map Subtype.val, n < 256 ^ width := by
  intro n mem
  obtain ⟨word, -, rfl⟩ := List.mem_map.mp mem
  exact word.property

def putStr (s : Text) : Datum := .str s.val s.property

def putBlock (s : Text) : Datum := .block s.val s.property

/-- `serialize` of a scalar, and `Vector::serialize`, which returns first when there are no
    elements. -/
def put : (l : Leaf) → l.Value → Option (List Datum)
  | .number t, n => some [.number t n.val n.property]
  | .str, s => some [putStr s]
  | .block, s => some [putBlock s]
  | .octets n, v => some (if n.val = 0 then [] else [.bytes v.elements])
  | .numbers t wide n, v =>
      some (if n.val = 0 then [] else [.vector t wide (v.elements.map Subtype.val) (word_lt v.elements)])
  | .strings _, v => collect (fun s => some [putStr s]) v.elements
  | .blocks _, v => collect (fun s => some [putBlock s]) v.elements

/-- The variables, as `Constructor` and `Vector` send them. -/
def sender : Sender Leaf Leaf.Value Datum where
  put := put
  putLength _ _ := some []

section
variable (host : Words.ByteOrder) (twiddle : Bool)

/-- `deserialize` of a scalar, and `Vector::deserialize`. -/
def get : (l : Leaf) → InStream UInt8 → Option (l.Result × InStream UInt8)
  | .number t, s => getNumber host twiddle t s
  | .str, s => getStr host s
  | .block, s => getOpaqueDap4 host s
  | .octets n, s => if n.val = 0 then some ([], s) else getVectorBytes n s
  | .numbers t _ n, s => if n.val = 0 then some ([], s) else getVectorOf host twiddle t n s
  | .strings n, s => getElements (getStr host) n s
  | .blocks n, s => getElements (getOpaqueDap4 host) n s

/-- The variables, as `Constructor` and `Vector` get them. -/
def receiver : Receiver Leaf Leaf.Result (InStream UInt8) where
  get := get host twiddle
  getLength _ s := some s

end

/-- A group, with its groups and its variables. -/
inductive D4Group where
  | mk (groups : List D4Group) (vars : List (Decl Leaf))

namespace D4Group

mutual
def Values : D4Group → Type
  | mk groups vars => GroupValues groups × Decl.Values Leaf.Value vars

def GroupValues : List D4Group → Type
  | [] => Unit
  | g :: gs => g.Values × GroupValues gs
end

mutual
/-- `send_p` of all variables. -/
def Marks : D4Group → Type
  | mk groups vars => GroupMarks groups × Decl.MemberMarks vars

def GroupMarks : List D4Group → Type
  | [] => Unit
  | g :: gs => g.Marks × GroupMarks gs
end

mutual
/-- The group that declares what is projected. -/
def declared : (g : D4Group) → g.Marks → D4Group
  | mk groups vars, (inner, sendP) => mk (declaredGroups groups inner) (Decl.declaredMembers vars sendP)

def declaredGroups : (gs : List D4Group) → GroupMarks gs → List D4Group
  | [], _ => []
  | g :: gs, (marks, others) => g.declared marks :: declaredGroups gs others
end

/-- A value for each variable, with the attribute that it is given. -/
def Received : List (Decl Leaf) → Type
  | [] => Unit
  | d :: ds => (d.Value Leaf.Result × D4Attribute) × Received ds

mutual
def Results : D4Group → Type
  | mk groups vars => GroupResults groups × Received vars

def GroupResults : List D4Group → Type
  | [] => Unit
  | g :: gs => g.Results × GroupResults gs
end

end D4Group

/-- The calls for a variable of a group, after `reset_checksum`: the data, and `put_checksum`. -/
def variableCalls (data : List Datum) : List Call := data.map .datum ++ [.checksum]

/-- The calls for the variables with these data, one after the other. -/
def run (host : Words.ByteOrder) : List (List Datum) → D4StreamMarshaller → D4StreamMarshaller.Effect
  | [], m => ([], m)
  | data :: others, m =>
      let (sections, next) := putCalls host (variableCalls data) m.resetChecksum
      let (rest, last) := run host others next
      (sections ++ rest, last)

/-- The loop of `D4Group::serialize` over the variables, as the data of each that is sent. -/
def serializeVars : (ds : List (Decl Leaf)) → Decl.MemberMarks ds → Decl.Values Leaf.Value ds →
    Option (List (List Datum))
  | [], _, _ => some []
  | d :: ds, (true, marks, others), (v, vs) => do
      let data ← sender.serialize d marks v
      let rest ← serializeVars ds others vs
      return data :: rest
  | _ :: ds, (false, _, others), (_, vs) => serializeVars ds others vs

mutual
/-- `D4Group::serialize`. -/
def serialize : (g : D4Group) → g.Marks → g.Values → Option (List (List Datum))
  | .mk groups vars, (inner, sendP), (ofGroups, ofVars) => do
      let first ← serializeGroups groups inner ofGroups
      let rest ← serializeVars vars sendP ofVars
      return first ++ rest

def serializeGroups : (gs : List D4Group) → D4Group.GroupMarks gs → D4Group.GroupValues gs →
    Option (List (List Datum))
  | [], _, _ => some []
  | g :: gs, (marks, others), (v, vs) => do
      let first ← serialize g marks v
      let rest ← serializeGroups gs others vs
      return first ++ rest
end

section
variable (host : Words.ByteOrder) (twiddle : Bool)

/-- `get_checksum_str`: eight hexadecimal digits. -/
def checksumStr (checksum : Nat) : List Char :=
  List.replicate (8 - (Nat.toDigits 16 checksum).length) '0' ++ Nat.toDigits 16 checksum

/-- The attribute that a variable is given. -/
def checksumAttribute (checksum : Nat) : D4Attribute :=
  (D4Attribute.new "DAP4_Checksum_CRC32".toList .attr_str_c).addValue (checksumStr checksum)

/-- The loop of `D4Group::deserialize` over the variables. -/
def deserializeVars : (ds : List (Decl Leaf)) → InStream UInt8 →
    Option (D4Group.Received ds × InStream UInt8)
  | [], s => some ((), s)
  | d :: ds, s => do
      let (v, next) ← (receiver host twiddle).deserialize d s
      let (checksum, next) ← getChecksum host next
      let (others, last) ← deserializeVars ds next
      return (((v, checksumAttribute checksum), others), last)

mutual
/-- `D4Group::deserialize`. -/
def deserialize : (g : D4Group) → InStream UInt8 → Option (g.Results × InStream UInt8)
  | .mk groups vars, s => do
      let (ofGroups, next) ← deserializeGroups groups s
      let (ofVars, last) ← deserializeVars host twiddle vars next
      return ((ofGroups, ofVars), last)

def deserializeGroups : (gs : List D4Group) → InStream UInt8 →
    Option (D4Group.GroupResults gs × InStream UInt8)
  | [], s => some ((), s)
  | g :: gs, s => do
      let (v, next) ← deserialize g s
      let (others, last) ← deserializeGroups gs next
      return ((v, others), last)
end

end

end Libdap.Dap4.DataResponse
