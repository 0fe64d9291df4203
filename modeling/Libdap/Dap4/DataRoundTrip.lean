import Libdap.Dap4.DataResponse

/-! # What comes back of DAP4 groups

The data of the projected variables of every group, each followed by its checksum, and what
a client makes of them which declares exactly these variables. It gets them all back, with
the checksum that the server computed for each alone, if and only if every length and
checksum reads the same in the byte orders of both hosts and no vector is too long for a
child thread.
-/

namespace Libdap.Dap4.DataResponse

open Marshal D4RoundTrip D4StreamUnMarshaller Words

variable (host server client : ByteOrder)

/-- The checksum that the marshaller comes to for the data of a variable alone. -/
def crc (data : List Datum) : UInt32 :=
  (putCalls host (data.map .datum) ⟨.reset, true⟩).2.checksum.getCrc32

/-- What the calls for the variables send. -/
def sentItems (vars : List (List Datum)) : List Item :=
  vars.flatMap fun data => data.map .datum ++ [.checksum (crc host data)]

/-- The data that are sent of a variable. -/
def data (d : Decl Leaf) (marks : d.Marks) (v : d.Value Leaf.Value) : List Datum :=
  (sender.serialize d marks v).getD []

mutual
/-- What a client is to hold of a group: the values, and the checksums of the server. -/
def received : (g : D4Group) → (marks : g.Marks) → g.Values → (g.declared marks).Results
  | .mk groups vars, (inner, sendP), (ofGroups, ofVars) =>
      (receivedGroups groups inner ofGroups, receivedVars vars sendP ofVars)

def receivedGroups : (gs : List D4Group) → (marks : D4Group.GroupMarks gs) → D4Group.GroupValues gs →
    D4Group.GroupResults (D4Group.declaredGroups gs marks)
  | [], _, _ => ()
  | g :: gs, (marks, others), (v, vs) => (received g marks v, receivedGroups gs others vs)

def receivedVars : (ds : List (Decl Leaf)) → (marks : Decl.MemberMarks ds) → Decl.Values Leaf.Value ds →
    D4Group.Received (Decl.declaredMembers ds marks)
  | [], _, _ => ()
  | d :: ds, (true, marks, others), (v, vs) =>
      ((d.sent Leaf.result marks v,
        checksumAttribute (crc host (data d marks v)).toNat), receivedVars ds others vs)
  | _ :: ds, (false, _, others), (_, vs) => receivedVars ds others vs
end

/-- The client that declares the projected variables gets all of their values, each with the
    checksum that the server's marshaller computed for it, and reads exactly what was written. -/
def ComesBack (c : Crc32) (g : D4Group) (sendP : g.Marks) (values : g.Values) : Prop :=
  ∃ vars bytes, serialize g sendP values = some vars ∧ emit (run server vars ⟨c, true⟩).1 = some bytes ∧
    ∀ s rest, At s (bytes ++ rest) →
      ∃ u, deserialize client (decide (server ≠ client)) (g.declared sendP) s =
        some (received server g sendP values, u) ∧ At u rest

/-- Every value and checksum is answered as it was sent, and the next one follows. -/
def EachComesBack (g : D4Group) (sendP : g.Marks) (values : g.Values) : Prop :=
  ∃ vars, serialize g sendP values = some vars ∧
    ∀ made, made <+: sentItems server vars → (coding server client).RoundTrips made

/-- The leaves that come back. -/
def Leaf.Good : (l : Leaf) → l.Value → Prop
  | .number _, _ => True
  | .str, s => Kept server client 8 s.val.length
  | .block, s => Kept server client 8 s.val.length ∧ s.val.length < 2 ^ 31
  | .octets _, _ => True
  | .numbers t _ n, _ => n * t.width < 2 ^ 31
  | .strings _, v => ∀ s ∈ v.elements, Kept server client 8 s.val.length
  | .blocks _, v => ∀ s ∈ v.elements, Kept server client 8 s.val.length ∧ s.val.length < 2 ^ 31

/-- Everything that is sent of the variables of a group comes back, with the checksums. -/
def GoodVars : (ds : List (Decl Leaf)) → Decl.MemberMarks ds → Decl.Values Leaf.Value ds → Prop
  | [], _, _ => True
  | d :: ds, (true, marks, others), (v, vs) =>
      (d.AllSent (Leaf.Good server client) (fun _ _ => True) marks v ∧
        Kept server client 4 (crc server (data d marks v)).toNat) ∧ GoodVars ds others vs
  | _ :: ds, (false, _, others), (_, vs) => GoodVars ds others vs

mutual
def Good : (g : D4Group) → g.Marks → g.Values → Prop
  | .mk groups vars, (inner, sendP), (ofGroups, ofVars) =>
      GoodGroups groups inner ofGroups ∧ GoodVars server client vars sendP ofVars

def GoodGroups : (gs : List D4Group) → D4Group.GroupMarks gs → D4Group.GroupValues gs → Prop
  | [], _, _ => True
  | g :: gs, (marks, others), (v, vs) => Good g marks v ∧ GoodGroups gs others vs
end

variable {host server client}

/-! ## The calls -/

theorem putCalls_writeData (calls : List Call) (m : D4StreamMarshaller) :
    (putCalls host calls m).2.writeData = m.writeData := by
  induction calls generalizing m with
  | nil => rfl
  | cons call calls ih =>
      cases call with
      | datum d => exact (ih _).trans (putDatum_writeData host m d)
      | checksum => exact ih m

/-- The data of a variable and their checksum are what its calls send. -/
theorem items_variableCalls (data : List Datum) (m : D4StreamMarshaller) :
    items host (variableCalls data) m =
      data.map .datum ++ [.checksum (putCalls host (data.map .datum) m).2.checksum.getCrc32] := by
  induction data generalizing m with
  | nil => rfl
  | cons d data ih => exact congrArg (Item.datum d :: ·) (ih (putDatum host m d).2)

/-- What the calls for the variables leave on the stream. -/
theorem emit_run (client : ByteOrder) (vars : List (List Datum)) (m : D4StreamMarshaller)
    (writes : m.writeData = true) :
    emit (run server vars m).1 = (coding server client).putAll (sentItems server vars) := by
  induction vars generalizing m with
  | nil => rfl
  | cons data others ih =>
      have fresh : m.resetChecksum = ⟨.reset, true⟩ := by
        obtain ⟨checksum, writeData⟩ := m
        exact congrArg (D4StreamMarshaller.mk .reset) writes
      have first := @emit_putCalls server client (variableCalls data) ⟨.reset, true⟩ rfl
      have rest := ih (putCalls server (variableCalls data) ⟨.reset, true⟩).2
        (putCalls_writeData _ _)
      have sent : sentItems server (data :: others) =
          items server (variableCalls data) ⟨.reset, true⟩ ++ sentItems server others := by
        rw [items_variableCalls]
        exact List.flatMap_cons
      simp only [run, fresh, emit_append, first, rest, sent, Coding.putAll_append]
      cases (coding server client).putAll (items server (variableCalls data) ⟨.reset, true⟩) <;>
        cases (coding server client).putAll (sentItems server others) <;> rfl

/-! ## The variables -/

/-- What is answered to the data of a variable. -/
abbrev dataCoding (server client : ByteOrder) : Coding UInt8 Datum D4RoundTrip.Request Answer (InStream UInt8) :=
  (coding server client).comap .datum

theorem get_of_answers {l : Leaf} {v : l.Value} {data : List Datum} {s u : InStream UInt8}
    (puts : put l v = some data) (answers : (dataCoding server client).Answers data s u) :
    get client (decide (server ≠ client)) l s = some (l.result v, u) := by
  cases l with
  | number t =>
      cases puts
      rw [Coding.answers_singleton] at answers
      obtain ⟨⟨n, w⟩, got, same⟩ := Option.map_eq_some_iff.mp answers
      cases same
      exact got
  | str =>
      cases puts
      rw [Coding.answers_singleton] at answers
      obtain ⟨⟨val, w⟩, got, same⟩ := Option.map_eq_some_iff.mp answers
      cases same
      exact got
  | block =>
      cases puts
      rw [Coding.answers_singleton] at answers
      obtain ⟨⟨val, w⟩, got, same⟩ := Option.map_eq_some_iff.mp answers
      cases same
      exact got
  | octets n =>
      by_cases none : n.val = 0
      · simp only [put, if_pos none, Option.some.injEq] at puts
        subst puts
        cases answers
        have empty := List.eq_nil_of_length_eq_zero (v.length.trans none)
        exact (if_pos none).trans (congrArg (fun vals => some (vals, s)) empty.symm)
      · simp only [put, if_neg none, Option.some.injEq] at puts
        subst puts
        rw [Coding.answers_singleton] at answers
        obtain ⟨⟨val, w⟩, got, same⟩ := Option.map_eq_some_iff.mp answers
        cases same
        rw [v.length] at got
        exact (if_neg none).trans got
  | numbers t wide n =>
      by_cases none : n.val = 0
      · simp only [put, if_pos none, Option.some.injEq] at puts
        subst puts
        cases answers
        have empty := List.eq_nil_of_length_eq_zero (v.length.trans none)
        exact (if_pos none).trans (congrArg (fun vals => some (List.map Subtype.val vals, s)) empty.symm)
      · simp only [put, if_neg none, Option.some.injEq] at puts
        subst puts
        rw [Coding.answers_singleton] at answers
        obtain ⟨⟨val, w⟩, got, same⟩ := Option.map_eq_some_iff.mp answers
        cases same
        rw [List.length_map, v.length] at got
        exact (if_neg none).trans got
  | strings n =>
      refine Receiver.getElements_collect Subtype.val _ (fun s _ data t u putOne answersOne => ?_)
        v.length puts answers
      cases putOne
      rw [Coding.answers_singleton] at answersOne
      obtain ⟨⟨val, w⟩, got, same⟩ := Option.map_eq_some_iff.mp answersOne
      cases same
      exact got
  | blocks n =>
      refine Receiver.getElements_collect Subtype.val _ (fun s _ data t u putOne answersOne => ?_)
        v.length puts answers
      cases putOne
      rw [Coding.answers_singleton] at answersOne
      obtain ⟨⟨val, w⟩, got, same⟩ := Option.map_eq_some_iff.mp answersOne
      cases same
      exact got

theorem receiver_follows : (receiver client (decide (server ≠ client))).Follows sender Leaf.result
    (dataCoding server client) where
  leaf := get_of_answers
  length puts answers := by
    cases puts
    cases answers
    rfl

theorem makes_put_iff (l : Leaf) (v : l.Value) :
    Makes (fun d => D4RoundTrip.Good server client (.datum d)) (put l v) ↔ l.Good server client v := by
  cases l with
  | number t => simp [put, D4RoundTrip.Good, Leaf.Good]
  | str => simp [put, putStr, D4RoundTrip.Good, Leaf.Good]
  | block => simp [put, putBlock, D4RoundTrip.Good, Leaf.Good]
  | octets n =>
      by_cases none : n.val = 0
      · simp [put, none, Leaf.Good]
      · simp [put, none, D4RoundTrip.Good, Leaf.Good, v.length]
  | numbers t wide n =>
      by_cases none : n.val = 0
      · simp [put, none, Leaf.Good]
      · simp [put, none, D4RoundTrip.Good, Leaf.Good, v.length]
  | strings n =>
      refine (makes_collect _).trans ?_
      simp [putStr, D4RoundTrip.Good, Leaf.Good]
  | blocks n =>
      refine (makes_collect _).trans ?_
      simp [putBlock, D4RoundTrip.Good, Leaf.Good]

/-! ## The groups -/

theorem data_eq {d : Decl Leaf} {marks : d.Marks} {v : d.Value Leaf.Value} {sent : List Datum}
    (serialized : sender.serialize d marks v = some sent) : data d marks v = sent := by
  rw [data, serialized, Option.getD_some]

theorem getChecksum_of_answers {c : UInt32} {s u : InStream UInt8}
    (answers : (coding server client).Answers [.checksum c] s u) :
    getChecksum client s = some (c.toNat, u) := by
  rw [Coding.answers_singleton] at answers
  obtain ⟨⟨n, w⟩, got, same⟩ := Option.map_eq_some_iff.mp answers
  cases same
  exact got

/-- When all that is sent of the variables is answered, the client has their values, and the
    checksums as attributes. -/
theorem deserializeVars_of_answers (ds : List (Decl Leaf)) (sendP : Decl.MemberMarks ds)
    (vs : Decl.Values Leaf.Value ds) {vars : List (List Datum)} (serialized : serializeVars ds sendP vs = some vars)
    {s u : InStream UInt8} (answers : (coding server client).Answers (sentItems server vars) s u) :
    deserializeVars client (decide (server ≠ client)) (Decl.declaredMembers ds sendP) s =
      some (receivedVars server ds sendP vs, u) := by
  induction ds generalizing vars s with
  | nil =>
      cases serialized
      cases answers
      rfl
  | cons d ds ih =>
      obtain ⟨send, marks, others⟩ := sendP
      obtain ⟨v, vs⟩ := vs
      cases send with
      | false => exact ih others vs serialized answers
      | true =>
          simp only [serializeVars, Option.bind_eq_bind, Option.bind_eq_some_iff, Option.pure_def,
            Option.some.injEq] at serialized
          obtain ⟨sent, first, rest, serializedRest, rfl⟩ := serialized
          obtain ⟨t, answersFirst, answersRest⟩ := Coding.answers_append answers
          obtain ⟨w, answersData, answersChecksum⟩ := Coding.answers_append answersFirst
          have got := Receiver.deserialize_of_answers receiver_follows d marks v first
            (Coding.answers_comap.mpr answersData)
          have gotChecksum := getChecksum_of_answers answersChecksum
          have gotRest := ih others vs serializedRest answersRest
          simp only [Decl.declaredMembers, deserializeVars, got, gotChecksum, gotRest, receivedVars,
            data_eq first, Option.bind_eq_bind, Option.bind_some]
          rfl

mutual
theorem deserialize_of_answers (g : D4Group) (sendP : g.Marks) (values : g.Values)
    {vars : List (List Datum)} (serialized : serialize g sendP values = some vars) {s u : InStream UInt8}
    (answers : (coding server client).Answers (sentItems server vars) s u) :
    deserialize client (decide (server ≠ client)) (g.declared sendP) s =
      some (received server g sendP values, u) := by
  obtain ⟨groups, ds⟩ := g
  obtain ⟨inner, marks⟩ := sendP
  obtain ⟨ofGroups, ofVars⟩ := values
  simp only [serialize, Option.bind_eq_bind, Option.bind_eq_some_iff, Option.pure_def,
    Option.some.injEq] at serialized
  obtain ⟨first, serializedGroups, rest, serializedVars, rfl⟩ := serialized
  rw [sentItems, List.flatMap_append] at answers
  obtain ⟨t, answersGroups, answersVars⟩ := Coding.answers_append answers
  have gotGroups := deserializeGroups_of_answers groups inner ofGroups serializedGroups answersGroups
  have gotVars := deserializeVars_of_answers ds marks ofVars serializedVars answersVars
  simp only [D4Group.declared, deserialize, gotGroups, gotVars, Option.bind_eq_bind, Option.bind_some]
  rfl

theorem deserializeGroups_of_answers (gs : List D4Group) (sendP : D4Group.GroupMarks gs)
    (values : D4Group.GroupValues gs) {vars : List (List Datum)}
    (serialized : serializeGroups gs sendP values = some vars) {s u : InStream UInt8}
    (answers : (coding server client).Answers (sentItems server vars) s u) :
    deserializeGroups client (decide (server ≠ client)) (D4Group.declaredGroups gs sendP) s =
      some (receivedGroups server gs sendP values, u) := by
  cases gs with
  | nil =>
      cases serialized
      cases answers
      rfl
  | cons g gs =>
      obtain ⟨marks, others⟩ := sendP
      obtain ⟨v, vs⟩ := values
      simp only [serializeGroups, Option.bind_eq_bind, Option.bind_eq_some_iff, Option.pure_def,
        Option.some.injEq] at serialized
      obtain ⟨first, serializedFirst, rest, serializedRest, rfl⟩ := serialized
      rw [sentItems, List.flatMap_append] at answers
      obtain ⟨t, answersFirst, answersRest⟩ := Coding.answers_append answers
      have gotFirst := deserialize_of_answers g marks v serializedFirst answersFirst
      have gotRest := deserializeGroups_of_answers gs others vs serializedRest answersRest
      simp only [D4Group.declaredGroups, deserializeGroups, gotFirst, gotRest, Option.bind_eq_bind,
        Option.bind_some]
      rfl
end

/-! ## What comes back -/

/-- The data of a variable that come back, with their checksum. -/
def GoodData (server client : ByteOrder) (data : List Datum) : Prop :=
  (∀ d ∈ data, D4RoundTrip.Good server client (.datum d)) ∧ Kept server client 4 (crc server data).toNat

theorem good_sentItems_iff (vars : List (List Datum)) :
    (∀ item ∈ sentItems server vars, D4RoundTrip.Good server client item) ↔
      ∀ data ∈ vars, GoodData server client data := by
  simp only [sentItems, List.forall_mem_flatMap, List.forall_mem_append, List.forall_mem_map,
    List.forall_mem_singleton]
  rfl

theorem makes_cons {C : Type} {P : C → Prop} {first : Option C} {rest : Option (List C)} :
    Makes P (do return (← first) :: (← rest)) ↔ (∃ call, first = some call ∧ P call) ∧ Makes P rest := by
  cases first with
  | none => simp
  | some first => cases rest <;> simp

/-- The data of a variable are good if and only if its leaves are and its checksum is. -/
theorem goodData_iff (d : Decl Leaf) (marks : d.Marks) (v : d.Value Leaf.Value) :
    (∃ sent, sender.serialize d marks v = some sent ∧ GoodData server client sent) ↔
      d.AllSent (Leaf.Good server client) (fun _ _ => True) marks v ∧
        Kept server client 4 (crc server (data d marks v)).toNat := by
  have leaves : (fun l v => Makes (fun d => D4RoundTrip.Good server client (.datum d)) (sender.put l v)) =
      Leaf.Good server client := by
    funext l v
    exact propext (makes_put_iff l v)
  have lengths : (fun n capacity => Makes (fun d => D4RoundTrip.Good server client (.datum d))
      (sender.putLength n capacity)) = fun _ _ => True := by
    funext n capacity
    simp [sender]
  have each := sender.makes_serialize_iff (fun d => D4RoundTrip.Good server client (.datum d)) d marks v
  rw [leaves, lengths] at each
  rw [← each]
  constructor
  · rintro ⟨sent, serialized, good, kept⟩
    rw [data_eq serialized]
    exact ⟨⟨sent, serialized, good⟩, kept⟩
  · rintro ⟨⟨sent, serialized, good⟩, kept⟩
    rw [data_eq serialized] at kept
    exact ⟨sent, serialized, good, kept⟩

theorem makes_serializeVars_iff (ds : List (Decl Leaf)) (sendP : Decl.MemberMarks ds)
    (vs : Decl.Values Leaf.Value ds) :
    Makes (GoodData server client) (serializeVars ds sendP vs) ↔ GoodVars server client ds sendP vs := by
  induction ds with
  | nil => simp [serializeVars, GoodVars]
  | cons d ds ih =>
      obtain ⟨send, marks, others⟩ := sendP
      obtain ⟨v, vs⟩ := vs
      cases send with
      | false => exact ih others vs
      | true => exact makes_cons.trans (and_congr (goodData_iff d marks v) (ih others vs))

mutual
theorem makes_serialize_iff (g : D4Group) (sendP : g.Marks) (values : g.Values) :
    Makes (GoodData server client) (serialize g sendP values) ↔ Good server client g sendP values := by
  obtain ⟨groups, ds⟩ := g
  exact makes_append.trans (and_congr (makes_serializeGroups_iff groups sendP.1 values.1)
    (makes_serializeVars_iff ds sendP.2 values.2))

theorem makes_serializeGroups_iff (gs : List D4Group) (sendP : D4Group.GroupMarks gs)
    (values : D4Group.GroupValues gs) : Makes (GoodData server client) (serializeGroups gs sendP values) ↔
      GoodGroups server client gs sendP values := by
  cases gs with
  | nil => simp [serializeGroups, GoodGroups]
  | cons g gs =>
      exact makes_append.trans (and_congr (makes_serialize_iff g sendP.1 values.1)
        (makes_serializeGroups_iff gs sendP.2 values.2))
end

/-- Every value and checksum is answered in its turn if and only if all that is sent is good,
    and then the client that declares the projected variables has the values of all of them,
    each with the server's checksum as an attribute, and has read what was written. -/
theorem groups_comeBack_iff (server client : ByteOrder) (c : Crc32) (g : D4Group) (sendP : g.Marks)
    (values : g.Values) :
    (EachComesBack server client g sendP values ↔ Good server client g sendP values) ∧
      (Good server client g sendP values → ComesBack server client c g sendP values) := by
  have exact_ : ∀ items : List Item, (∀ made, made <+: items → (coding server client).RoundTrips made) ↔
      ∀ item ∈ items, D4RoundTrip.Good server client item := fun items =>
    Coding.roundTrips_iff (fun input => ⟨⟨input, false⟩, rfl⟩) (fun item _ => exact_of_good item)
      (fun item _ => astray_of_bad item)
  have each : EachComesBack server client g sendP values ↔ Good server client g sendP values := by
    rw [← makes_serialize_iff]
    exact exists_congr fun vars => and_congr_right fun _ => (exact_ _).trans (good_sentItems_iff vars)
  refine ⟨each, fun good => ?_⟩
  obtain ⟨vars, serialized, comeBack⟩ := each.mpr good
  obtain ⟨bytes, puts, gets⟩ := comeBack _ List.prefix_rfl
  refine ⟨vars, bytes, serialized, (emit_run client vars ⟨c, true⟩ rfl).trans puts, fun s rest place => ?_⟩
  obtain ⟨u, answers, placed⟩ := gets s rest place
  exact ⟨u, deserialize_of_answers g sendP values serialized answers, placed⟩

/-- A string of one character from a big-endian server. -/
def oneCharacter : D4Group := .mk [] [.leaf .str]

/-- A little-endian client does not get it: the length is `2 ^ 56` to it. -/
theorem oneCharacter_lost : ¬∀ (server client : ByteOrder) (c : Crc32) (g : D4Group) (sendP : g.Marks)
    (values : g.Values), ComesBack server client c g sendP values := by
  intro claim
  obtain ⟨vars, bytes, serialized, puts, gets⟩ :=
    claim .big .little .reset oneCharacter ((), true, (), ()) ((), ⟨[65], by simp⟩, ())
  cases serialized
  obtain ⟨u, got, -⟩ := gets ⟨bytes ++ [], false⟩ [] rfl
  cases puts
  cases got

end Libdap.Dap4.DataResponse
