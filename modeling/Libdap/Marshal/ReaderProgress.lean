import Libdap.Dap2.Variables

/-! # What a read leaves

Whatever is read, not more is left of the stream than before, and at the end of the stream
a reader stays as it is: nothing is delivered to the buffer, and what stands there is decoded.
-/

namespace Libdap.Marshal.XDRStreamUnMarshaller

open Xdr

/-- A reader, and what it is after some reads. -/
structure Later (u v : Reader) : Prop where
  less : v.dIn.rest.length ≤ u.dIn.rest.length
  ended : u.dIn.eof = true → v = u

namespace Later

theorem refl (u : Reader) : Later u u := ⟨Nat.le_refl _, fun _ => rfl⟩

theorem trans {u v w : Reader} (first : Later u v) (second : Later v w) : Later u w := by
  refine ⟨second.less.trans first.less, fun ended => ?_⟩
  obtain rfl := first.ended ended
  exact second.ended ended

end Later

theorem Reader.ext {u v : Reader} (dIn : u.dIn = v.dIn) (dBuf : u.dBuf = v.dBuf) : u = v := by
  obtain ⟨_, _, _⟩ := u
  obtain ⟨_, _, _⟩ := v
  cases dIn
  cases dBuf
  rfl

theorem readInto_later {u v : Reader} {offset : Nat} {n : Int} (read : readInto u offset n = some v) : Later u v := by
  unfold readInto at read
  split at read
  · cases read
    refine ⟨Nat.le_refl _, fun ended => Reader.ext ?_ rfl⟩
    rw [← ended]
  · unfold deliver at read
    split at read
    · cases read
    · rename_i dBuf stored
      cases read
      refine ⟨InStream.length_read_le _ _, fun ended => ?_⟩
      have nothing := InStream.read_at_eof (n := n.toNat) ended
      refine Reader.ext (congrArg Prod.snd nothing) ?_
      rw [nothing, store] at stored
      split at stored
      · cases stored
      · rw [List.append_nil, List.length_nil, Nat.add_zero, List.take_append_drop] at stored
        exact (Option.some.inj stored).symm

theorem readHeap_later {u v : Reader} {n : Int} {buf : List UInt8} (read : readHeap u n = some (buf, v)) : Later u v := by
  unfold readHeap at read
  split at read
  · cases read
  · cases read
    refine ⟨InStream.length_read_le _ _, fun ended => Reader.ext ?_ rfl⟩
    exact congrArg Prod.snd (InStream.read_at_eof ended)

variable {lib : Library}

theorem gather_later {heap : Bool} {u v : Reader} {n : Int} {buf : List UInt8}
    (read : gather heap u n = some (buf, v)) : Later u v := by
  unfold gather at read
  split at read
  · exact readHeap_later read
  · obtain ⟨w, into, same⟩ := Option.map_eq_some_iff.mp read
    cases same
    exact readInto_later into

theorem getInt_later {u v : Reader} {n : Int} (got : getInt lib u = some (n, v)) : Later u v := by
  unfold getInt at got
  obtain ⟨w, into, same⟩ := Option.bind_eq_some_iff.mp got
  cases same
  exact readInto_later into

theorem getScalar_later {t : Scalar} {u v : Reader} {m : List UInt8} (got : getScalar lib t u = some (m, v)) :
    Later u v := by
  have encoded : ∀ {t}, getEncoded lib t u = some (m, v) → Later u v := by
    intro t got
    unfold getEncoded at got
    obtain ⟨w, into, same⟩ := Option.bind_eq_some_iff.mp got
    cases same
    exact readInto_later into
  cases t with
  | byte =>
    unfold getScalar getByte at got
    obtain ⟨w, into, same⟩ := Option.bind_eq_some_iff.mp got
    split at same
    · cases same
    · cases same
      exact readInto_later into
  | _ => exact encoded got

theorem getStr_later {u v : Reader} {s : List UInt8} (got : getStr lib u = some (s, v)) : Later u v := by
  unfold getStr at got
  obtain ⟨⟨n, w⟩, number, got⟩ := Option.bind_eq_some_iff.mp got
  obtain ⟨⟨buf, w'⟩, gathered, got⟩ := Option.bind_eq_some_iff.mp got
  obtain ⟨val, _, same⟩ := Option.bind_eq_some_iff.mp got
  cases same
  exact (getInt_later number).trans (gather_later gathered)

theorem getVectorByte_later {mem : List UInt8} {u v : Reader} {r : Nat × List UInt8}
    (got : getVectorByte lib mem u = some (r, v)) : Later u v := by
  unfold getVectorByte at got
  obtain ⟨⟨n, w⟩, number, got⟩ := Option.bind_eq_some_iff.mp got
  refine (getInt_later number).trans ?_
  simp only at got
  split at got
  · obtain ⟨⟨buf, w'⟩, read, got⟩ := Option.bind_eq_some_iff.mp got
    obtain ⟨val, _, got⟩ := Option.bind_eq_some_iff.mp got
    obtain ⟨stored, _, same⟩ := Option.bind_eq_some_iff.mp got
    cases same
    exact readHeap_later read
  · obtain ⟨w', read, got⟩ := Option.bind_eq_some_iff.mp got
    obtain ⟨val, _, got⟩ := Option.bind_eq_some_iff.mp got
    obtain ⟨stored, _, same⟩ := Option.bind_eq_some_iff.mp got
    cases same
    exact readInto_later read

theorem getVector_later {t : Scalar} {mem : List UInt8} {u v : Reader} {r : Nat × List UInt8}
    (got : getVector lib t mem u = some (r, v)) : Later u v := by
  unfold getVector at got
  obtain ⟨⟨n, w⟩, number, got⟩ := Option.bind_eq_some_iff.mp got
  obtain ⟨⟨buf, w'⟩, gathered, got⟩ := Option.bind_eq_some_iff.mp got
  simp only at got
  split at got
  · cases got
  · obtain ⟨result, _, same⟩ := Option.bind_eq_some_iff.mp got
    cases same
    exact (getInt_later number).trans (gather_later gathered)

end Libdap.Marshal.XDRStreamUnMarshaller

namespace Libdap.Dap2.Variables

open Marshal Xdr XDRStreamUnMarshaller

variable {lib : Library}

theorem getLength_later {n : Nat} {u v : Reader} (got : getLength lib n u = some v) : Later u v := by
  unfold getLength at got
  obtain ⟨⟨num, w⟩, number, got⟩ := Option.bind_eq_some_iff.mp got
  simp only at got
  split at got
  · cases got
  · cases got
    exact getInt_later number

theorem getElements_later {β : Type} {get : Reader → Option (β × Reader)}
    (each : ∀ {u v b}, get u = some (b, v) → Later u v) {n : Nat} {u v : Reader} {r : Stored β n}
    (got : getElements get n u = some (r, v)) : Later u v := by
  induction n generalizing u with
  | zero =>
    cases got
    exact .refl _
  | succ n ih =>
    rw [getElements] at got
    obtain ⟨⟨b, next⟩, first, got⟩ := Option.bind_eq_some_iff.mp got
    obtain ⟨⟨others, last⟩, more, same⟩ := Option.bind_eq_some_iff.mp got
    cases same
    exact (each first).trans (ih more)

theorem get_later {l : Leaf} {u v : Reader} {r : l.Result} (got : get lib l u = some (r, v)) : Later u v := by
  cases l with
  | scalar t => exact getScalar_later got
  | str => exact getStr_later got
  | cardinals t n =>
    obtain ⟨⟨r', w⟩, vector, same⟩ := Option.map_eq_some_iff.mp got
    cases same
    unfold Variables.getVector at vector
    obtain ⟨w', length, vector⟩ := Option.bind_eq_some_iff.mp vector
    refine (getLength_later length).trans ?_
    split at vector
    · cases vector
      exact .refl _
    · split at vector
      · exact getVectorByte_later vector
      · exact getVector_later vector
  | strings n =>
    obtain ⟨w, length, elements⟩ := Option.bind_eq_some_iff.mp got
    exact (getLength_later length).trans (getElements_later getStr_later elements)

end Libdap.Dap2.Variables
