import Libdap.Dap2.Variables

/-! # What comes back of a DAP2 dataset

The calls that a server makes for the projected variables, and the answers that a client
gets which declares exactly these. When every call is answered, the client holds the values
of the projected variables and has read what was written. Each call is answered in its turn
if and only if every value that is sent is of a length that comes back.
-/

namespace Libdap.Dap2.Variables

open Marshal Ints Xdr XdrRoundTrip XDRStreamUnMarshaller

variable (lib : Library)

namespace Call

/-- The sections that a call goes through. -/
def sections : Call → Option (List Section)
  | value v => XdrRoundTrip.put lib v
  | str s => XDRStreamMarshaller.putStr lib s
  | empty t => if t = .byte then XDRStreamMarshaller.putVectorByte lib []
      else XDRStreamMarshaller.putVector lib t []

def request : Call → XdrRoundTrip.Request
  | value v => v.request
  | str _ => .str
  | empty t => if t = .byte then .bytes 0 else .vector t 0

def answer : Call → Answer
  | value v => v.answer
  | str s => .memory s
  | empty _ => .vector 0 []

/-- The calls whose values come back. -/
def Good : Call → Prop
  | value v => v.Good ∧ ∃ sections, XdrRoundTrip.put lib v = some sections
  | str s => (∀ b ∈ s, b ≠ 0) ∧ s.length ≤ 65534
  | empty t => t ≠ .byte

end Call

/-- What a client does for a request: it compares the number of a vector's elements with the
    declared one first, and gets nothing more of none. -/
def answerTo : XdrRoundTrip.Request → Reader → Option (Answer × Reader)
  | .bytes n, u => (getVector lib .byte n u).map fun r => (.vector r.1.1 r.1.2, r.2)
  | .vector t n, u => (getVector lib t n u).map fun r => (.vector r.1.1 r.1.2, r.2)
  | request, u => XdrRoundTrip.get lib request u

/-- Calls of the marshaller, answered by those of the unmarshaller. -/
def coding : Coding UInt8 Call XdrRoundTrip.Request Answer Reader where
  put call := (call.sections lib).bind emit
  request := Call.request
  result := Call.answer
  get := answerTo lib
  At := XDRStreamUnMarshaller.At

/-- The client that declares the projected variables gets all of their values, and reads
    exactly what was written. -/
def ComesBack (dds : List (Decl Leaf)) (sendP : Decl.MemberMarks dds)
    (values : Decl.Values Leaf.Value dds) : Prop :=
  ∃ calls bytes, serialize dds sendP values = some calls ∧ (coding lib).putAll calls = some bytes ∧
    ∀ u rest, At u (bytes ++ rest) → ∃ w, deserialize lib (Decl.declaredMembers dds sendP) u =
      some (Decl.sentMembers Leaf.result dds sendP values, w) ∧ At w rest

/-- Each call is answered with the value that it puts, and the next one follows. -/
def EachComesBack (dds : List (Decl Leaf)) (sendP : Decl.MemberMarks dds)
    (values : Decl.Values Leaf.Value dds) : Prop :=
  ∃ calls, serialize dds sendP values = some calls ∧
    ∀ made, made <+: calls → (coding lib).RoundTrips made

/-- The strings that come back. -/
def GoodStr (s : List UInt8) : Prop := (∀ b ∈ s, b ≠ 0) ∧ s.length ≤ 65534

/-- The leaves that come back: strings without NUL that are not too long, octets in an even
    number that one buffer holds, numbers that do not fill a buffer and of which there are not
    two of two octets, and strings that have storage. -/
def Leaf.Good : (l : Leaf) → l.Value → Prop
  | .scalar _, _ => True
  | .str, s => GoodStr s
  | .cardinals .byte n, _ => n.val ≠ 0 ∧ n.val % 2 = 0 ∧ n.val + n.val % 4 + 4 ≤ 4096
  | .cardinals t n, _ => n * t.units + 4 < 2 ^ 31 ∧ n * t.units ≠ 4096 ∧ (t.width = 2 → n.val ≤ 1)
  | .strings _, v => v.capacity ≠ 0 ∧ ∀ s ∈ v.elements, GoodStr s

/-- Everything that is sent comes back, and every array of Structures has storage. -/
def Good (dds : List (Decl Leaf)) (sendP : Decl.MemberMarks dds)
    (values : Decl.Values Leaf.Value dds) : Prop :=
  Decl.AllSentMembers Leaf.Good (fun _ capacity => capacity ≠ 0) dds sendP values

variable {lib}

/-! ## The calls -/

theorem getLength_eq_bind {n : Nat} {u : Reader} : getLength lib n u =
    (getInt lib u).bind fun r => if r.1 = n then some r.2 else none := by
  unfold getLength
  cases getInt lib u with
  | none => rfl
  | some r => by_cases same : r.1 = n <;> simp [same]

/-- A client asks for elements as the calls themselves do when there are some. -/
theorem getVector_bytes {n : Nat} (some_ : n ≠ 0) (u : Reader) :
    answerTo lib (.bytes n) u = XdrRoundTrip.get lib (.bytes n) u := by
  simp only [answerTo, getVector, getLength_eq_bind, XdrRoundTrip.get, if_neg some_]
  cases getInt lib u with
  | none => rfl
  | some r => by_cases same : r.1 = n <;> simp [same]

theorem getVector_vector {t : Scalar} (number : t ≠ .byte) {n : Nat} (some_ : n ≠ 0) (u : Reader) :
    answerTo lib (.vector t n) u = XdrRoundTrip.get lib (.vector t n) u := by
  simp only [answerTo, getVector, getLength_eq_bind, XdrRoundTrip.get, if_neg some_, if_neg number]
  cases getInt lib u with
  | none => rfl
  | some r => by_cases same : r.1 = n <;> simp [same]

/-- A value that is put is asked for as by itself. -/
theorem answerTo_value {v : XdrRoundTrip.Value} {sections : List Section}
    (returned : XdrRoundTrip.put lib v = some sections) (u : Reader) :
    answerTo lib v.request u = XdrRoundTrip.get lib v.request u := by
  cases v with
  | int x fits => rfl
  | scalar t cell => rfl
  | str s nulFree => rfl
  | block data => rfl
  | bytes val some_ int => exact getVector_bytes (List.length_pos_iff.mpr some_).ne' u
  | vector t cells some_ unsigned =>
      exact getVector_vector (put_vector returned).1 (List.length_pos_iff.mpr some_).ne' u

theorem value_exact {v : XdrRoundTrip.Value} (good : (Call.value v).Good lib) : (coding lib).Exact (.value v) := by
  obtain ⟨lengths, sections, returned⟩ := good
  obtain ⟨bytes, puts, gets⟩ := exact_of_good returned lengths
  refine ⟨bytes, puts, ?_⟩
  intro u rest place
  obtain ⟨w, got, placed⟩ := gets u rest place
  exact ⟨w, (answerTo_value returned u).trans got, placed⟩

theorem value_astray {v : XdrRoundTrip.Value} (bad : ¬(Call.value v).Good lib) : (coding lib).Astray (.value v) := by
  intro bytes puts
  obtain ⟨sections, returned, -⟩ := Option.bind_eq_some_iff.mp puts
  have lengths : ¬v.Good := fun good => bad ⟨good, sections, returned⟩
  obtain ⟨rest, astray⟩ := astray_of_bad returned lengths bytes puts
  exact ⟨rest, fun u place w got => astray u place w ((answerTo_value returned u).symm.trans got)⟩

theorem str_exact {s : List UInt8} (good : GoodStr s) : (coding lib).Exact (.str s) := by
  have returned := @XDRStreamMarshaller.putStr_eq lib s good.1 (by have := good.2; omega)
  have short : (XdrRoundTrip.Value.str s good.1).Good := good.2
  exact XdrRoundTrip.str_exact returned short

theorem str_astray {s : List UInt8} (bad : ¬GoodStr s) : (coding lib).Astray (.str s) := by
  intro bytes puts
  by_cases nulFree : ∀ b ∈ s, b ≠ 0
  · simp only [coding, Call.sections] at puts
    obtain ⟨sections, returned, -⟩ := Option.bind_eq_some_iff.mp puts
    have long : ¬(XdrRoundTrip.Value.str s nulFree).Good := fun short => bad ⟨nulFree, short⟩
    exact @XdrRoundTrip.str_astray lib s nulFree sections returned long bytes (by
      simp only [XdrRoundTrip.coding, XdrRoundTrip.put, puts])
  · refine ⟨[], fun u _ w got => ?_⟩
    obtain ⟨⟨val, v⟩, gotStr, same⟩ := Option.map_eq_some_iff.mp got
    cases same
    exact absurd (nulFree_of_getStr gotStr) nulFree

/-- The number of no elements, and what a client makes of it. -/
theorem getVector_empty (t : Scalar) {u : Reader} {rest : List UInt8} (place : At u (lib.int 0 ++ rest)) :
    ∃ w, getVector lib t 0 u = some ((0, []), w) ∧ At w rest := by
  obtain ⟨w, got, placed, -⟩ := getInt_spec (by decide) place
  exact ⟨w, by simp [getVector, getLength, got], placed⟩

theorem empty_exact {t : Scalar} (number : t ≠ .byte) : (coding lib).Exact (.empty t) := by
  refine ⟨lib.int 0, ?_, ?_⟩
  · simp [coding, Call.sections, number, XDRStreamMarshaller.putVector, XDRStreamMarshaller.putInt_eq,
      emit_write, i32]
  · intro u rest place
    obtain ⟨w, got, placed⟩ := getVector_empty t place
    exact ⟨w, by simp [coding, Call.request, Call.answer, number, answerTo, got], placed⟩

/-- No octets are put as two numbers, of which a client gets one. -/
theorem noOctets_astray : (coding lib).Astray (.empty .byte) := by
  have puts : (coding lib).put (.empty .byte) = some (lib.int 0 ++ lib.uInt 0) := by
    simp only [coding, Call.sections, if_true, XDRStreamMarshaller.putVectorByte_eq, Option.bind_some]
    rw [emit_write_handOver (by simp [Keeps, pad])]
    simp [xdrOpaque, pad, List.take_of_length_le]
  intro bytes same
  obtain rfl := Option.some.inj (puts.symm.trans same)
  refine ⟨[], fun u place w got after => ?_⟩
  rw [List.append_assoc] at place
  obtain ⟨v, gotEmpty, left⟩ := getVector_empty .byte place
  have result : answerTo lib (.bytes 0) u = some (.vector 0 [], w) := got
  rw [answerTo, gotEmpty] at result
  obtain ⟨-, rfl⟩ := Prod.mk.inj (Option.some.inj result)
  have none : lib.uInt 0 ++ [] = [] := congrArg InStream.rest (left.symm.trans after)
  have four := congrArg List.length none
  simp at four

/-- The good calls come back, -/
theorem exact_of_good {call : Call} (good : call.Good lib) : (coding lib).Exact call := by
  cases call with
  | value v => exact value_exact good
  | str s => exact str_exact good
  | empty t => exact empty_exact good

/-- and the others go astray. -/
theorem astray_of_bad {call : Call} (bad : ¬call.Good lib) : (coding lib).Astray call := by
  cases call with
  | value v => exact value_astray bad
  | str s => exact str_astray bad
  | empty t =>
      obtain rfl : t = .byte := Decidable.not_not.mp bad
      exact noOctets_astray

theorem coding_opens (input : List UInt8) : ∃ u, (coding lib).At u input := @XdrRoundTrip.opens lib input

/-! ## The variables -/

theorem getLength_of_answers {n : Length} {capacity : Nat} {calls : List Call} {u w : Reader}
    (puts : putLength n capacity = some calls) (answers : (coding lib).Answers calls u w) :
    getLength lib n u = some w := by
  unfold putLength at puts
  split at puts
  · cases puts
  · cases puts
    rw [Coding.answers_singleton] at answers
    obtain ⟨⟨x, v⟩, got, same⟩ := Option.map_eq_some_iff.mp answers
    cases same
    simp [getLength, got]

/-- The call for a vector asks for as many elements as there are, -/
theorem request_putVector (t : Scalar) (cells : List (Cell t)) (int : cells.length < 2 ^ 31) :
    (putVector t cells int).request = if t = .byte then .bytes cells.length else .vector t cells.length := by
  cases cells with
  | nil => rfl
  | cons cell cells =>
      cases t with
      | byte => exact congrArg XdrRoundTrip.Request.bytes (length_memory_byte (cell :: cells))
      | _ => rfl

/-- and its answer is their memory. -/
theorem answer_putVector (t : Scalar) (cells : List (Cell t)) (int : cells.length < 2 ^ 31) :
    (putVector t cells int).answer = .vector cells.length (memory cells) := by
  cases cells with
  | nil => rfl
  | cons cell cells =>
      cases t with
      | byte => exact congrArg (Answer.vector · _) (length_memory_byte (cell :: cells))
      | _ => rfl

theorem getVector_of_answers {t : Scalar} {cells : List (Cell t)} {int : cells.length < 2 ^ 31}
    {u w : Reader} (answers : (coding lib).Answers [putVector t cells int] u w) :
    getVector lib t cells.length u = some ((cells.length, memory cells), w) := by
  rw [Coding.answers_singleton] at answers
  simp only [coding, request_putVector, answer_putVector] at answers
  by_cases octets : t = .byte
  · subst octets
    rw [if_pos rfl] at answers
    obtain ⟨⟨⟨num, m⟩, v⟩, got, same⟩ := Option.map_eq_some_iff.mp answers
    cases same
    exact got
  · rw [if_neg octets] at answers
    obtain ⟨⟨⟨num, m⟩, v⟩, got, same⟩ := Option.map_eq_some_iff.mp answers
    cases same
    exact got

theorem get_of_answers {l : Leaf} {v : l.Value} {calls : List Call} {u w : Reader}
    (puts : put l v = some calls) (answers : (coding lib).Answers calls u w) :
    get lib l u = some (l.result v, w) := by
  cases l with
  | scalar t =>
      cases puts
      rw [Coding.answers_singleton] at answers
      obtain ⟨⟨m, x⟩, got, same⟩ := Option.map_eq_some_iff.mp answers
      cases same
      exact got
  | str =>
      cases puts
      rw [Coding.answers_singleton] at answers
      obtain ⟨⟨s, x⟩, got, same⟩ := Option.map_eq_some_iff.mp answers
      cases same
      exact got
  | cardinals t n =>
      simp only [put] at puts
      split at puts
      · cases puts
      · cases puts
        have got := getVector_of_answers answers
        rw [v.length] at got
        exact congrArg (Option.map _) got
  | strings n =>
      simp only [put, Option.bind_eq_bind, Option.bind_eq_some_iff, Option.pure_def,
        Option.some.injEq] at puts
      obtain ⟨length, putLength, strs, putStrs, rfl⟩ := puts
      obtain ⟨x, answersLength, answersStrs⟩ := Coding.answers_append answers
      have got := getLength_of_answers putLength answersLength
      have gotStrs := Receiver.getElements_collect id (getStr lib)
        (fun s _ calls u w putOne answersOne => ?_) v.length putStrs answersStrs
      · simp only [get, got, gotStrs, Option.bind_eq_bind, Option.bind_some]
        exact congrArg (fun r => some (r, w)) (Stored.exactly_ext (List.map_id _) _ _)
      · cases putOne
        rw [Coding.answers_singleton] at answersOne
        obtain ⟨⟨s, x⟩, got, same⟩ := Option.map_eq_some_iff.mp answersOne
        cases same
        exact got

/-- What a client gets follows from the answers. -/
theorem receiver_follows : (receiver lib).Follows sender Leaf.result (coding lib) where
  leaf := get_of_answers
  length := getLength_of_answers

/-- The call for a vector is good if and only if the number of its elements is. -/
theorem good_putVector_iff {t : Scalar} {n : Length} (v : Stored (Cell t) n) (int : v.elements.length < 2 ^ 31) :
    (putVector t v.elements int).Good lib ↔ (Leaf.cardinals t n).Good v := by
  have length := v.length
  generalize v.elements = cells at length int
  cases t with
  | byte =>
      cases cells with
      | nil => simp_all [putVector, Call.Good, Leaf.Good]
      | cons cell cells =>
          have some_ : n.val ≠ 0 := by rw [← length]; exact Nat.succ_ne_zero _
          have returned := XDRStreamMarshaller.putVectorByte_eq lib (memory (cell :: cells))
          simp only [putVector, Call.Good, Leaf.Good, XdrRoundTrip.Value.Good, length_memory_byte, length]
          exact ⟨fun good => ⟨some_, good.1⟩, fun good => ⟨good.2, _, returned⟩⟩
  | _ =>
      cases cells with
      | nil => simp_all [putVector, Call.Good, Leaf.Good, ← length]
      | cons cell cells =>
          have one : 1 ≤ n.val := by rw [← length]; exact Nat.succ_pos _
          simp only [putVector, Call.Good, Leaf.Good, XdrRoundTrip.Value.Good, length]
          refine ⟨fun good => ?_, fun good => ?_⟩
          · obtain ⟨⟨full, narrow⟩, sections, returned⟩ := good
            have small := (XDRStreamMarshaller.of_putVector (List.cons_ne_nil _ _) returned).2
            rw [length] at small
            exact ⟨small, full, fun two => (narrow two).le⟩
          · obtain ⟨small, full, narrow⟩ := good
            refine ⟨⟨full, fun two => by have := narrow two; omega⟩, _,
              XDRStreamMarshaller.putVector_eq (List.cons_ne_nil _ _) (by decide) ?_⟩
            rwa [length]

theorem makes_putLength_iff (n : Length) (capacity : Nat) :
    Makes (Call.Good lib) (putLength n capacity) ↔ capacity ≠ 0 := by
  by_cases none : capacity = 0
  · simp [putLength, none]
  · simp [putLength, none, Call.Good, XdrRoundTrip.Value.Good, XdrRoundTrip.put, XDRStreamMarshaller.putInt_eq]

theorem makes_put_iff (l : Leaf) (v : l.Value) : Makes (Call.Good lib) (put l v) ↔ l.Good v := by
  cases l with
  | scalar t =>
      simp [put, Call.Good, Leaf.Good, XdrRoundTrip.Value.Good, XdrRoundTrip.put, XDRStreamMarshaller.putScalar_eq]
  | str => simp [put, Call.Good, Leaf.Good, GoodStr]
  | cardinals t n =>
      by_cases null : t = .byte ∧ v.capacity = 0
      · obtain ⟨rfl, empty⟩ := null
        have none := v.room
        simp only [put, Leaf.Good, empty, true_and, if_true, not_makes_none, false_iff]
        omega
      · simp only [put, if_neg null, makes_some, List.forall_mem_singleton]
        exact good_putVector_iff v _
  | strings n =>
      refine makes_append.trans (and_congr (makes_putLength_iff n _) ((makes_collect _).trans ?_))
      simp [Call.Good, GoodStr]

/-- The calls of the projected variables are good if and only if their values are. -/
theorem makes_serialize_iff_good (lib : Library) (dds : List (Decl Leaf)) (sendP : Decl.MemberMarks dds)
    (values : Decl.Values Leaf.Value dds) :
    Makes (Call.Good lib) (serialize dds sendP values) ↔ Good dds sendP values := by
  have leaves : (fun l v => Makes (Call.Good lib) (sender.put l v)) = Leaf.Good := by
    funext l v
    exact propext (makes_put_iff l v)
  have lengths : (fun n capacity => Makes (Call.Good lib) (sender.putLength n capacity)) =
      fun _ capacity => capacity ≠ 0 := by
    funext n capacity
    exact propext (makes_putLength_iff n capacity)
  rw [serialize, Sender.makes_serializeMembers_iff, leaves, lengths, Good]

/-- When everything that is sent is good, the client that declares the projected variables has
    the values of all of them and has read what was written. -/
theorem comesBack_of_good (lib : Library) {dds : List (Decl Leaf)} {sendP : Decl.MemberMarks dds}
    {values : Decl.Values Leaf.Value dds} (good : Good dds sendP values) : ComesBack lib dds sendP values := by
  obtain ⟨calls, serialized, each⟩ := (makes_serialize_iff_good lib dds sendP values).mpr good
  obtain ⟨bytes, puts, gets⟩ := Coding.roundTrips_of_exact fun call mem => exact_of_good (each call mem)
  refine ⟨calls, bytes, serialized, puts, fun u rest place => ?_⟩
  obtain ⟨w, answers, placed⟩ := gets u rest place
  exact ⟨w, Receiver.deserializeMembers_of_answers receiver_follows dds sendP values serialized answers,
    placed⟩

/-- Each call is answered in its turn if and only if everything that is sent is good, and then
    the client that declares the projected variables has the values of all of them and has
    read what was written. -/
theorem dataset_comesBack_iff (lib : Library) (dds : List (Decl Leaf)) (sendP : Decl.MemberMarks dds)
    (values : Decl.Values Leaf.Value dds) :
    (EachComesBack lib dds sendP values ↔ Good dds sendP values) ∧
      (Good dds sendP values → ComesBack lib dds sendP values) := by
  have exact_ : ∀ calls : List Call, (∀ made, made <+: calls → (coding lib).RoundTrips made) ↔
      ∀ call ∈ calls, call.Good lib := fun calls =>
    Coding.roundTrips_iff coding_opens (fun call _ => exact_of_good) (fun call _ => astray_of_bad)
  have each : EachComesBack lib dds sendP values ↔ Good dds sendP values := by
    rw [← makes_serialize_iff_good lib]
    exact exists_congr fun calls => and_congr_right fun _ => exact_ calls
  exact ⟨each, comesBack_of_good lib⟩

/-- An array of no octets, for which there is no buffer, cannot even be sent. -/
theorem noOctets_thrown : ¬∀ (dds : List (Decl Leaf)) (sendP : Decl.MemberMarks dds)
    (values : Decl.Values Leaf.Value dds), ComesBack (standard .little) dds sendP values := by
  intro claim
  obtain ⟨calls, -, serialized, -⟩ := claim [.leaf (.cardinals .byte 0)] (true, (), ())
    (⟨[], 0, rfl, Nat.le_refl 0⟩, ())
  cases serialized

end Libdap.Dap2.Variables
