import Libdap.Dap2.Sequence
import Libdap.Foundation.Machine
import Libdap.Marshal.ReaderProgress

/-! # When reading a Sequence ends

Reading a Sequence is a loop around what its rows are read with, which may be Sequences
again. A reader at the end of its stream decodes what stands in its buffer, and the loop
goes on for as long as it finds the start of an instance there.
-/

namespace Libdap.Dap2

open Marshal Xdr XDRStreamUnMarshaller Foundation Variables

/-- A variable of a row. A Structure and a Grid are constructors. -/
inductive Field where
  | leaf (l : Leaf)
  | constructor (members : List Field)
  | array (n : Length) (element : Field)
  | sequence (fields : List Field)

/-- What is to be read, or a Sequence whose next marker is to be read. -/
inductive Task where
  | read (f : Field)
  | rows (fields : List Field)

/-- A run of `deserialize`: what has been called and has not returned, and the unmarshaller. -/
structure Reading where
  tasks : List Task
  reader : Reader

/-- `read_marker`. What `get_opaque` makes of one octet are two, of which the second is behind
    the variable for the marker. -/
def readMarker (u : Reader) : Option (UInt8 × Reader) := do
  let u ← readInto u 0 (1 + 1 % 4 : Nat)
  return (u.dBuf.headD 0, u)

section

variable (lib : Library)

/-- There is nothing next where `deserialize` has returned or thrown. -/
def next : Reading → Option Reading
  | ⟨[], _⟩ => none
  | ⟨.read (.leaf l) :: tasks, u⟩ => (Variables.get lib l u).map fun r => ⟨tasks, r.2⟩
  | ⟨.read (.constructor members) :: tasks, u⟩ => some ⟨members.map .read ++ tasks, u⟩
  | ⟨.read (.array n element) :: tasks, u⟩ =>
      (getLength lib n u).map fun u => ⟨List.replicate n (.read element) ++ tasks, u⟩
  | ⟨.read (.sequence fields) :: tasks, u⟩ => some ⟨.rows fields :: tasks, u⟩
  | ⟨.rows fields :: tasks, u⟩ => do
      let (marker, u) ← readMarker u
      if marker = endOfSequence then some ⟨tasks, u⟩
      else if marker = startOfInstance then some ⟨fields.map .read ++ .rows fields :: tasks, u⟩
      else none

mutual
/-- A field can be read from what stands in the buffer. -/
def Field.Stale (u : Reader) : Field → Prop
  | .leaf l => (Variables.get lib l u).isSome = true
  | .constructor members => Stale.all u members
  | .array n element => (getLength lib n u).isSome = true ∧ (n.val ≠ 0 → element.Stale u)
  | .sequence _ => u.dBuf.headD 0 = endOfSequence

def Stale.all (u : Reader) : List Field → Prop
  | [] => True
  | f :: fs => f.Stale u ∧ Stale.all u fs
end

/-- The input is used up before a marker, and the buffer starts with the one for an instance and
    serves for each of the fields. -/
structure Stuck (r : Reading) : Prop where
  ended : r.reader.dIn.eof = true
  marker : r.reader.dBuf.headD 0 = startOfInstance
  fields : ∃ fields tasks, r.tasks = .rows fields :: tasks ∧ Stale.all lib r.reader fields

end

theorem readMarker_later {u v : Reader} {m : UInt8} (read : readMarker u = some (m, v)) : Later u v := by
  obtain ⟨w, into, same⟩ := Option.bind_eq_some_iff.mp read
  cases same
  exact readInto_later into

theorem readMarker_ended {u : Reader} (ended : u.dIn.eof = true) : readMarker u = some (u.dBuf.headD 0, u) := by
  have into : readInto u 0 (1 + 1 % 4 : Nat) = some u := by
    have none_ := InStream.read_at_eof (n := 2) ended
    obtain ⟨v, ok, dIn, dBuf⟩ := @deliver_eq u 0 (u.dIn.read 2) (by rw [none_]; exact Nat.zero_le _)
    have same : v = u := Reader.ext (dIn.trans (congrArg Prod.snd none_)) (by
      rw [dBuf, none_]
      rfl)
    rw [readInto, if_neg (by decide)]
    exact same ▸ ok
  rw [readMarker, into]
  rfl

/-- A marker that is there takes two octets. -/
theorem readMarker_takes {u v : Reader} {m : UInt8} (read : readMarker u = some (m, v)) (good : v.dIn.eof = false) :
    v.dIn.rest.length < u.dIn.rest.length := by
  have before : u.dIn.eof = false := by
    cases ended : u.dIn.eof with
    | false => rfl
    | true => rw [(readMarker_later read).ended ended, ended] at good; cases good
  obtain ⟨w, into, same⟩ := Option.bind_eq_some_iff.mp read
  cases same
  have place : At u u.dIn.rest := by rw [At, ← before]
  have placed : At v v.dIn.rest := by rw [At, ← good]
  have taken := length_of_readInto (by decide) place into placed
  omega

section

variable {lib : Library} {u : Reader}

mutual
theorem reaches_of_stale (ended : u.dIn.eof = true) (f : Field) (tasks : List Task) (stale : f.Stale lib u) :
    Reaches (next lib) ⟨.read f :: tasks, u⟩ ⟨tasks, u⟩ := by
  cases f with
  | leaf l =>
    rw [Field.Stale] at stale
    obtain ⟨⟨r, v⟩, got⟩ := Option.isSome_iff_exists.mp stale
    obtain rfl := ((get_later got).ended ended).symm
    exact reaches_of_step (by rw [next, got]; rfl)
  | constructor members =>
    rw [Field.Stale] at stale
    exact (reaches_of_step (by rw [next])).trans (reaches_of_stale_all ended members tasks stale)
  | array n element =>
    rw [Field.Stale] at stale
    obtain ⟨v, got⟩ := Option.isSome_iff_exists.mp stale.1
    obtain rfl := ((getLength_later got).ended ended).symm
    refine (reaches_of_step (by rw [next, got]; rfl)).trans ?_
    have each : ∀ k, (k ≠ 0 → n.val ≠ 0) →
        Reaches (next lib) ⟨List.replicate k (.read element) ++ tasks, u⟩ ⟨tasks, u⟩ := by
      intro k some_
      induction k with
      | zero => exact .refl
      | succ k ih =>
        have filled := some_ (Nat.succ_ne_zero k)
        exact (reaches_of_stale ended element _ (stale.2 filled)).trans (ih fun _ => filled)
    exact each n fun filled => filled
  | sequence fields =>
    rw [Field.Stale] at stale
    refine (reaches_of_step (by rw [next])).trans (reaches_of_step ?_)
    rw [next, readMarker_ended ended]
    exact if_pos stale

theorem reaches_of_stale_all (ended : u.dIn.eof = true) (fs : List Field) (tasks : List Task)
    (stale : Stale.all lib u fs) : Reaches (next lib) ⟨fs.map .read ++ tasks, u⟩ ⟨tasks, u⟩ := by
  cases fs with
  | nil => exact .refl
  | cons f fs =>
    rw [Stale.all] at stale
    exact (reaches_of_stale ended f _ stale.1).trans (reaches_of_stale_all ended fs tasks stale.2)
end

/-- A loop that is stuck comes back to its marker. -/
theorem not_ends_of_stuck {r : Reading} (stuck : Stuck lib r) : ¬Ends (next lib) r := by
  obtain ⟨tasks, v⟩ := r
  obtain ⟨ended, marker, fields, rest, same, stale⟩ := stuck
  cases same
  have start : startOfInstance ≠ endOfSequence := by decide
  have again : next lib ⟨.rows fields :: rest, v⟩ = some ⟨fields.map .read ++ .rows fields :: rest, v⟩ := by
    rw [next, readMarker_ended ended]
    exact (if_neg fun last => start (marker.symm.trans last)).trans (if_pos marker)
  exact not_ends_of_cycle again (reaches_of_stale_all ended fields _ stale)

/-- No loop is stuck from here on. -/
def Unstuck (lib : Library) (r : Reading) : Prop := ∀ r', Reaches (next lib) r r' → ¬Stuck lib r'

theorem Unstuck.after {r r' : Reading} (unstuck : Unstuck lib r) (reaches : Reaches (next lib) r r') : Unstuck lib r' :=
  fun _ more => unstuck _ (reaches.trans more)

mutual
/-- Where nothing is left to read, a field that the buffer does not serve for ends the run. -/
theorem ends_of_not_stale (ended : u.dIn.eof = true) (f : Field) (tasks : List Task)
    (unstuck : Unstuck lib ⟨.read f :: tasks, u⟩) (unread : ¬f.Stale lib u) :
    Ends (next lib) ⟨.read f :: tasks, u⟩ := by
  cases f with
  | leaf l =>
    rw [Field.Stale, Bool.not_eq_true, Option.isSome_eq_false_iff, Option.isNone_iff_eq_none] at unread
    exact ends_of_none (by rw [next, unread]; rfl)
  | constructor members =>
    rw [Field.Stale] at unread
    have first : next lib ⟨.read (.constructor members) :: tasks, u⟩ = some ⟨members.map .read ++ tasks, u⟩ := by rw [next]
    exact ends_of_step first (ends_of_not_stale_all ended members tasks (unstuck.after (reaches_of_step first)) unread)
  | array n element =>
    rw [Field.Stale, not_and_or] at unread
    cases got : getLength lib n u with
    | none => exact ends_of_none (by rw [next, got]; rfl)
    | some v =>
      obtain rfl := ((getLength_later got).ended ended).symm
      have inside := unread.resolve_left fun absent => absent (by rw [got]; rfl)
      rw [Classical.not_imp] at inside
      have first : next lib ⟨.read (.array n element) :: tasks, u⟩ =
          some ⟨List.replicate n (.read element) ++ tasks, u⟩ := by
        rw [next, got]
        rfl
      have unstuck := unstuck.after (reaches_of_step first)
      refine ends_of_step first ?_
      obtain ⟨k, more⟩ := Nat.exists_eq_succ_of_ne_zero inside.1
      rw [more, List.replicate_succ] at unstuck ⊢
      exact ends_of_not_stale ended element _ unstuck inside.2
  | sequence fields =>
    have first : next lib ⟨.read (.sequence fields) :: tasks, u⟩ = some ⟨.rows fields :: tasks, u⟩ := by rw [next]
    exact ends_of_step first (ends_of_rows ended fields tasks (unstuck.after (reaches_of_step first)) fun last => by
      rw [Field.Stale] at unread
      exact absurd last unread)

theorem ends_of_not_stale_all (ended : u.dIn.eof = true) (fs : List Field) (tasks : List Task)
    (unstuck : Unstuck lib ⟨fs.map .read ++ tasks, u⟩) (unread : ¬Stale.all lib u fs) :
    Ends (next lib) ⟨fs.map .read ++ tasks, u⟩ := by
  cases fs with
  | nil => exact absurd trivial unread
  | cons f fs =>
    rw [Stale.all, not_and] at unread
    by_cases stale : f.Stale lib u
    · have first : Reaches (next lib) ⟨.read f :: (fs.map .read ++ tasks), u⟩ ⟨fs.map .read ++ tasks, u⟩ :=
        reaches_of_stale ended f _ stale
      exact ends_of_reaches first (ends_of_not_stale_all ended fs tasks (unstuck.after first) (unread stale))
    · exact ends_of_not_stale ended f _ unstuck stale

/-- The loop ends, if what comes behind it does. -/
theorem ends_of_rows (ended : u.dIn.eof = true) (fields : List Field) (tasks : List Task)
    (unstuck : Unstuck lib ⟨.rows fields :: tasks, u⟩)
    (behind : u.dBuf.headD 0 = endOfSequence → Ends (next lib) ⟨tasks, u⟩) :
    Ends (next lib) ⟨.rows fields :: tasks, u⟩ := by
  have marker := readMarker_ended ended
  by_cases last : u.dBuf.headD 0 = endOfSequence
  · exact ends_of_step (by rw [next, marker]; exact if_pos last) (behind last)
  · by_cases start : u.dBuf.headD 0 = startOfInstance
    · have again : next lib ⟨.rows fields :: tasks, u⟩ = some ⟨fields.map .read ++ .rows fields :: tasks, u⟩ := by
        rw [next, marker]
        exact (if_neg last).trans (if_pos start)
      have unread : ¬Stale.all lib u fields := fun stale =>
        unstuck _ .refl ⟨ended, start, fields, tasks, rfl, stale⟩
      exact ends_of_step again
        (ends_of_not_stale_all ended fields _ (unstuck.after (reaches_of_step again)) unread)
    · refine ends_of_none ?_
      rw [next, marker]
      exact (if_neg last).trans (if_neg start)
end

/-- With nothing left to read every run ends in which no loop is stuck. -/
theorem ends_of_ended (ended : u.dIn.eof = true) (tasks : List Task) (unstuck : Unstuck lib ⟨tasks, u⟩) :
    Ends (next lib) ⟨tasks, u⟩ := by
  induction tasks with
  | nil => exact ends_of_none (by rw [next])
  | cons task tasks ih =>
    cases task with
    | read f =>
      by_cases stale : f.Stale lib u
      · have first := reaches_of_stale ended f tasks stale
        exact ends_of_reaches first (ih (unstuck.after first))
      · exact ends_of_not_stale ended f tasks unstuck stale
    | rows fields =>
      refine ends_of_rows ended fields tasks unstuck fun last => ih (unstuck.after (reaches_of_step ?_))
      rw [next, readMarker_ended ended]
      exact if_pos last

end

mutual
/-- How many steps reading a field takes at the most before a loop comes to a row. -/
def Field.weight : Field → Nat
  | .leaf _ => 1
  | .constructor members => 1 + weightAll members
  | .array n element => 1 + n * element.weight
  | .sequence _ => 2

def weightAll : List Field → Nat
  | [] => 0
  | f :: fs => f.weight + weightAll fs
end

def Task.weight : Task → Nat
  | .read f => f.weight
  | .rows _ => 1

def Reading.weight (r : Reading) : Nat := (r.tasks.map Task.weight).sum

theorem weight_map_read (fs : List Field) : ((fs.map Task.read).map Task.weight).sum = weightAll fs := by
  induction fs with
  | nil => rfl
  | cons f fs ih =>
    rw [List.map_cons, List.map_cons, List.sum_cons, ih]
    rfl

/-- A step uses some of the input, or nothing of it and makes what is to do less. -/
theorem next_less {lib : Library} {r r' : Reading} (step : next lib r = some r') (good : r'.reader.dIn.eof = false) :
    r'.reader.dIn.rest.length < r.reader.dIn.rest.length ∨
      (r'.reader.dIn.rest.length ≤ r.reader.dIn.rest.length ∧ r'.weight < r.weight) := by
  obtain ⟨tasks, u⟩ := r
  match tasks, step with
  | .read (.leaf l) :: tasks, step =>
    rw [next] at step
    obtain ⟨⟨m, v⟩, got, same⟩ := Option.map_eq_some_iff.mp step
    cases same
    refine .inr ⟨(get_later got).less, ?_⟩
    simp only [Reading.weight, List.map_cons, List.sum_cons, Task.weight, Field.weight]
    omega
  | .read (.constructor members) :: tasks, step =>
    rw [next] at step
    cases step
    refine .inr ⟨Nat.le_refl _, ?_⟩
    simp only [Reading.weight, List.map_append, List.sum_append, weight_map_read, List.map_cons, List.sum_cons,
      Task.weight, Field.weight]
    omega
  | .read (.array n element) :: tasks, step =>
    rw [next] at step
    obtain ⟨v, got, same⟩ := Option.map_eq_some_iff.mp step
    cases same
    refine .inr ⟨(getLength_later got).less, ?_⟩
    simp only [Reading.weight, List.map_append, List.sum_append, List.map_replicate, List.sum_replicate_nat,
      List.map_cons, List.sum_cons, Task.weight, Field.weight]
    omega
  | .read (.sequence fields) :: tasks, step =>
    rw [next] at step
    cases step
    refine .inr ⟨Nat.le_refl _, ?_⟩
    simp only [Reading.weight, List.map_cons, List.sum_cons, Task.weight, Field.weight]
    omega
  | .rows fields :: tasks, step =>
    rw [next] at step
    obtain ⟨⟨m, v⟩, read, step⟩ := Option.bind_eq_some_iff.mp step
    change (if m = endOfSequence then some (Reading.mk tasks v) else if m = startOfInstance then
      some ⟨fields.map .read ++ .rows fields :: tasks, v⟩ else none) = some r' at step
    split at step
    · cases step
      exact .inl (readMarker_takes read good)
    · split at step
      · cases step
        exact .inl (readMarker_takes read good)
      · cases step

theorem ends_of_unstuck {lib : Library} (r : Reading) (unstuck : Unstuck lib r) : Ends (next lib) r := by
  induction left : r.reader.dIn.rest.length using Nat.strong_induction_on generalizing r with
  | _ k shorter =>
    induction todo : r.weight using Nat.strong_induction_on generalizing r with
    | _ w lighter =>
      cases ended : r.reader.dIn.eof with
      | true => exact ends_of_ended ended r.tasks unstuck
      | false =>
        refine .intro fun r' step => ?_
        have unstuck' := unstuck.after (reaches_of_step step)
        cases ended' : r'.reader.dIn.eof with
        | true => exact ends_of_ended ended' r'.tasks unstuck'
        | false =>
          rcases next_less step ended' with less | ⟨atMost, less⟩
          · exact shorter _ (left ▸ less) r' unstuck' rfl
          · rcases Nat.lt_or_eq_of_le atMost with less' | same
            · exact shorter _ (left ▸ less') r' unstuck' rfl
            · exact lighter _ (todo ▸ less) r' unstuck' (same.trans left) rfl

/-- Reading a Sequence ends, whatever is read, exactly if no loop comes to a marker with the input used up, the start of an
    instance in the buffer and a buffer that serves for every field. -/
theorem deserialize_ends_iff (lib : Library) (fields : List Field) (u : Reader) :
    Ends (next lib) ⟨[.rows fields], u⟩ ↔ ∀ r, Reaches (next lib) ⟨[.rows fields], u⟩ r → ¬Stuck lib r := by
  constructor
  · intro ends r reaches stuck
    exact not_ends_of_stuck stuck (ends.after reaches)
  · exact ends_of_unstuck _

/-- The unmarshaller of a response that has come to its end behind the first marker. -/
def cutReader : Reader := ⟨.open_ [startOfInstance, 0], List.replicate xdrDapBuffSize 0, List.length_replicate⟩

/-- Numbers are decoded from the buffer again and again. -/
theorem cut_response_goes_on :
    ¬Ends (next (standard .big)) ⟨[.rows [.leaf (.scalar .int32)]], cutReader⟩ := by
  intro ends
  have place : At cutReader ([startOfInstance, 0] ++ []) := rfl
  obtain ⟨v, into, placed, buf⟩ := readInto_spec 0 place (by decide)
  have marker : v.dBuf.headD 0 = startOfInstance := by
    rw [buf]
    rfl
  have first : next (standard .big) ⟨[.rows [.leaf (.scalar .int32)]], cutReader⟩ =
      some ⟨[.read (.leaf (.scalar .int32)), .rows [.leaf (.scalar .int32)]], v⟩ := by
    have read : readMarker cutReader = some (startOfInstance, v) := by
      rw [readMarker, show readInto cutReader 0 (1 + 1 % 4 : Nat) = some v from into, ← marker]
      rfl
    rw [next, read]
    rfl
  have short : v.dIn.read 4 = ([], ⟨[], true⟩) := by
    rw [show v.dIn = _ from placed]
    rfl
  obtain ⟨w, ok, dIn, dBuf⟩ := @deliver_eq v 0 (v.dIn.read 4) (by rw [short]; exact Nat.zero_le _)
  have into' : readInto v 0 4 = some w := ok
  have second : next (standard .big) ⟨[.read (.leaf (.scalar .int32)), .rows [.leaf (.scalar .int32)]], v⟩ =
      some ⟨[.rows [.leaf (.scalar .int32)]], w⟩ := by
    rw [next]
    change ((readInto v 0 4 >>= fun u => some ((standard .big).coderOf .int32 (u.dBuf.take 4), u)).map _) = _
    rw [into']
    rfl
  have ended : w.dIn.eof = true := by rw [dIn, short]
  refine not_ends_of_stuck ⟨ended, ?_, [.leaf (.scalar .int32)], [], rfl, ?_⟩
    ((ends.after_step first).after_step second)
  · change w.dBuf.headD 0 = startOfInstance
    rw [dBuf, short, ← marker]
    rfl
  · rw [Stale.all, Field.Stale]
    have again : readInto w 0 4 = some w := by
      obtain ⟨x, ok', dIn', dBuf'⟩ := @deliver_eq w 0 (w.dIn.read 4) (by
        rw [InStream.read_at_eof ended]
        exact Nat.zero_le _)
      have same : x = w := by
        rw [InStream.read_at_eof ended] at dIn' dBuf'
        exact Reader.ext dIn' dBuf'
      exact same ▸ ok'
    refine ⟨?_, trivial⟩
    change (readInto w 0 4 >>= fun u => some ((standard .big).coderOf .int32 (u.dBuf.take 4), u)).isSome = true
    rw [again]
    rfl

end Libdap.Dap2
