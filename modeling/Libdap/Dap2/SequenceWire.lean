import Libdap.Dap2.DatasetRoundTrip
import Libdap.Dap2.Sequence

/-! # The rows of Sequences on the wire

The projected variables of a row are sent and got like those of a dataset. A marker is opaque
data of one octet, which is padded to four; that is what is got back.
-/

namespace Libdap.Dap2.Variables

open Marshal Xdr XDRStreamUnMarshaller

/-- The variables of a row of a Sequence that are no Sequences. -/
structure RowVars where
  fields : List (Decl Leaf)
  sendP : Decl.MemberMarks fields
  values : Decl.Values Leaf.Value fields

namespace RowVars

/-- What the client declares. -/
def declared (v : RowVars) : List (Decl Leaf) := Decl.declaredMembers v.fields v.sendP

/-- What it holds. -/
def sent (v : RowVars) : Σ fields : List (Decl Leaf), Decl.Values Leaf.Result fields :=
  ⟨v.declared, Decl.sentMembers Leaf.result v.fields v.sendP v.values⟩

end RowVars

variable (lib : Library)

/-- A marker with its padding. -/
def getMarker (u : Reader) : Option (UInt8 × Reader) := do
  let u ← readInto u 0 4
  return (u.dBuf.headD 0, u)

theorem getMarker_spec {m : UInt8} {u : Reader} {rest : List UInt8} (place : At u (xdrOpaque [m] ++ rest)) :
    ∃ w, getMarker u = some (m, w) ∧ At w rest := by
  obtain ⟨w, ok, placed, buf⟩ := readInto_spec 0 place (by simp [xdrOpaque, pad, xdrDapBuffSize])
  have length : (xdrOpaque [m]).length = 4 := rfl
  rw [length] at ok
  refine ⟨w, ?_, placed⟩
  rw [getMarker]
  simp only [show ((4 : Nat) : Int) = 4 from rfl] at ok
  simp only [ok, Option.bind_eq_bind, Option.bind_some, buf]
  rfl

/-- The rows of DAP2 Sequences. -/
def rowWire : Wire RowVars (List (Decl Leaf)) (Σ fields : List (Decl Leaf), Decl.Values Leaf.Result fields) Reader where
  put v := (serialize v.fields v.sendP v.values).bind (coding lib).putAll
  request := RowVars.declared
  result := RowVars.sent
  get fields u := (deserialize lib fields u).map fun r => (⟨fields, r.1⟩, r.2)
  At := XDRStreamUnMarshaller.At
  putMarker m := xdrOpaque [m]
  getMarker := getMarker
  marker _ _ _ := getMarker_spec

/-- The rows whose values are good come back. -/
theorem exact_of_goodRow {v : RowVars} (good : Good v.fields v.sendP v.values) : (rowWire lib).Exact v := by
  obtain ⟨calls, bytes, serialized, puts, gets⟩ := comesBack_of_good lib good
  refine ⟨bytes, ?_, fun u rest place => ?_⟩
  · show (serialize v.fields v.sendP v.values).bind (coding lib).putAll = some bytes
    rw [serialized]
    exact puts
  · obtain ⟨w, got, placed⟩ := gets u rest place
    refine ⟨w, ?_, placed⟩
    show (deserialize lib v.declared u).map (fun r => (⟨v.declared, r.1⟩, r.2)) = some (v.sent, w)
    rw [RowVars.declared, got]
    rfl

/-- A row with a string. -/
def word (s : List UInt8) : RowVars := ⟨[.leaf .str], (true, (), ()), (s, ())⟩

theorem comeBack_word {s : List UInt8} (good : GoodStr s) : (rowWire lib).Exact (word s) :=
  exact_of_goodRow lib ⟨good, trivial⟩

end Libdap.Dap2.Variables
