import Libdap.Foundation.Declared
import Libdap.Marshal.XdrRoundTrip

/-! # The values of DAP2 variables on the wire

Scalars, arrays, Structures and Grids with no Sequence in them, as calls of the XDR
marshaller and of the unmarshaller. A Structure and a Grid send their projected members in
order. An array of octets or numbers is a vector, and any other array is the number of its
elements and one element after the other. There is no selection.
-/

namespace Libdap.Dap2.Variables

open Marshal Ints Xdr XdrRoundTrip XDRStreamUnMarshaller

/-- The variables without members; a Str and an Url are the same on the wire. -/
inductive Leaf where
  | scalar (t : Scalar)
  | str
  | cardinals (t : Scalar) (length : Length)
  | strings (length : Length)
  deriving DecidableEq

namespace Leaf

/-- What a server holds. The storage of an array is `d_buf`, which is null when it has room
    for nothing, or `d_str`. -/
def Value : Leaf → Type
  | scalar t => Cell t
  | str => List UInt8
  | cardinals t length => Stored (Cell t) length
  | strings length => Stored (List UInt8) length

/-- What a client holds: memory for all but strings. -/
def Result : Leaf → Type
  | scalar _ | str | cardinals _ _ => List UInt8
  | strings length => Stored (List UInt8) length

def result : (l : Leaf) → l.Value → l.Result
  | scalar _, cell => cell.octets
  | str, s => s
  | cardinals _ _, v => v.elements.flatMap Cell.octets
  | strings _, v => .exactly v.elements v.length

end Leaf

/-- What is asked of the marshaller: to put a value, a string of any characters, or a
    vector without elements. -/
inductive Call where
  | value (v : XdrRoundTrip.Value)
  | str (s : List UInt8)
  | empty (t : Scalar)

/-- The memory of octets. -/
def memory {t : Scalar} (cells : List (Cell t)) : List UInt8 := cells.flatMap Cell.octets

theorem length_memory_byte (cells : List (Cell .byte)) : (memory cells).length = cells.length := by
  rw [memory, length_cells, Scalar.width, Nat.mul_one]

/-- The call of `put_vector` for octets, or for numbers. -/
def putVector : (t : Scalar) → (cells : List (Cell t)) → cells.length < 2 ^ 31 → Call
  | t, [], _ => .empty t
  | .byte, cell :: cells, int =>
      .value (.bytes (memory (cell :: cells))
        (List.ne_nil_of_length_pos (by rw [length_memory_byte]; exact Nat.succ_pos _))
        (by rwa [length_memory_byte]))
  | t, cell :: cells, int => .value (.vector t (cell :: cells) (List.cons_ne_nil _ _) (by omega))

/-- `put_int` for the number of elements, which throws without room for any. -/
def putLength (n : Length) (capacity : Nat) : Option (List Call) :=
  if capacity = 0 then none else some [.value (.int n ⟨by omega, by omega⟩)]

/-- `serialize` of a scalar, and `Vector::serialize`. Octets throw without a buffer. -/
def put : (l : Leaf) → l.Value → Option (List Call)
  | .scalar t, cell => some [.value (.scalar t cell)]
  | .str, s => some [.str s]
  | .cardinals t _, v =>
      if t = .byte ∧ v.capacity = 0 then none
      else some [putVector t v.elements (by rw [v.length]; exact Fin.is_lt _)]
  | .strings n, v => do
      let length ← putLength n v.capacity
      let strs ← collect (fun s => some [.str s]) v.elements
      return length ++ strs

variable (lib : Library)

/-- Get the number of the elements, which must be the declared one. -/
def getLength (n : Nat) (u : Reader) : Option Reader := do
  let (num, u) ← getInt lib u
  if num ≠ n then none else return u

/-- Get octets or numbers with the number of them. There is nothing more to get of none. -/
def getVector (t : Scalar) (n : Nat) (u : Reader) : Option ((Nat × List UInt8) × Reader) := do
  let u ← getLength lib n u
  if n = 0 then return ((0, []), u)
  if t = .byte then getVectorByte lib (List.replicate n 0) u
  else XDRStreamUnMarshaller.getVector lib t (List.replicate (n * t.width) 0) u

/-- `deserialize` of a scalar, and `Vector::deserialize`. -/
def get : (l : Leaf) → Reader → Option (l.Result × Reader)
  | .scalar t, u => getScalar lib t u
  | .str, u => getStr lib u
  | .cardinals t n, u => (getVector lib t n u).map fun r => (r.1.2, r.2)
  | .strings n, u => do
      let u ← getLength lib n u
      getElements (getStr lib) n u

/-- The variables, as `Constructor` and `Vector` send them, -/
def sender : Sender Leaf Leaf.Value Call where
  put := put
  putLength := putLength

/-- and get them. -/
def receiver : Receiver Leaf Leaf.Result Reader where
  get := get lib
  getLength n := getLength lib n

/-- The calls of `serialize` for the variables of a DDS, from first to last. -/
def serialize (dds : List (Decl Leaf)) (sendP : Decl.MemberMarks dds) (values : Decl.Values Leaf.Value dds) :
    Option (List Call) :=
  sender.serializeMembers dds sendP values

/-- `deserialize` of the variables of a DDS, from first to last. -/
def deserialize (dds : List (Decl Leaf)) (u : Reader) : Option (Decl.Values Leaf.Result dds × Reader) :=
  (receiver lib).deserializeMembers dds u

end Libdap.Dap2.Variables
