import Libdap.Foundation.Coding
import Mathlib.Logic.Basic
import Mathlib.Tactic.Ring

/-! # Values of declared variables

Variables are declared as trees: leaves, arrays of records and records. A tree says what
its values are, and a mark for each member of a record says whether it is sent. The other
side declares the marked members only. Whoever sends makes one call after the other; who
receives gets one answer after the other and builds the values of the smaller tree.
-/

namespace Libdap

/-- The lengths that an `int` holds. -/
abbrev Length := Fin (2 ^ 31)

/-- The elements of an array of a length, and the number that its storage has room for. -/
structure Stored (α : Type) (n : Nat) where
  elements : List α
  capacity : Nat
  length : elements.length = n
  room : n ≤ capacity
  deriving DecidableEq

/-- Storage for exactly these elements. -/
def Stored.exactly {α : Type} {n : Nat} (elements : List α) (length : elements.length = n) : Stored α n :=
  ⟨elements, n, length, Nat.le_refl n⟩

theorem Stored.exactly_ext {α : Type} {n : Nat} {as bs : List α} (same : as = bs) (hm : as.length = n)
    (hn : bs.length = n) : exactly as hm = exactly bs hn := by
  subst same
  rfl

/-- The declaration of a variable, with the kinds of leaves `L`. -/
inductive Decl (L : Type) where
  | leaf (l : L)
  | array (n : Length) (members : List (Decl L))
  | record (members : List (Decl L))

namespace Decl

variable {L : Type}

mutual
/-- The values of a variable, whose leaves hold `V`. -/
def Value (V : L → Type) : Decl L → Type
  | leaf l => V l
  | array n members => Stored (Values V members) n
  | record members => Values V members

def Values (V : L → Type) : List (Decl L) → Type
  | [] => Unit
  | d :: ds => d.Value V × Values V ds
end

mutual
/-- Which members of the records of a variable are sent. -/
def Marks : Decl L → Type
  | leaf _ => Unit
  | array _ members => MemberMarks members
  | record members => MemberMarks members

/-- `send_p` of each variable, and the marks inside of it. -/
def MemberMarks : List (Decl L) → Type
  | [] => Unit
  | d :: ds => Bool × d.Marks × MemberMarks ds
end

mutual
/-- The declaration of what is sent. -/
def declared : (d : Decl L) → d.Marks → Decl L
  | leaf l, _ => leaf l
  | array n members, marks => array n (declaredMembers members marks)
  | record members, marks => record (declaredMembers members marks)

def declaredMembers : (ds : List (Decl L)) → MemberMarks ds → List (Decl L)
  | [], _ => []
  | d :: ds, (true, marks, others) => d.declared marks :: declaredMembers ds others
  | _ :: ds, (false, _, others) => declaredMembers ds others
end

section
variable {V R : L → Type} (result : (l : L) → V l → R l)

mutual
/-- The values that are sent, as the other side is to hold them. -/
def sent : (d : Decl L) → (marks : d.Marks) → d.Value V → (d.declared marks).Value R
  | leaf l, _, v => result l v
  | array _ members, marks, v =>
      .exactly (v.elements.map (sentMembers members marks)) (by rw [List.length_map, v.length])
  | record members, marks, v => sentMembers members marks v

def sentMembers : (ds : List (Decl L)) → (marks : MemberMarks ds) → Values V ds →
    Values R (declaredMembers ds marks)
  | [], _, _ => ()
  | d :: ds, (true, marks, others), (v, vs) => (d.sent marks v, sentMembers ds others vs)
  | _ :: ds, (false, _, others), (_, vs) => sentMembers ds others vs
end
end

end Decl

/-- The calls made for one element after the other, unless one throws. -/
def collect {α C : Type} (calls : α → Option (List C)) : List α → Option (List C)
  | [] => some []
  | a :: as => do
      let first ← calls a
      let others ← collect calls as
      return first ++ others

/-- Get `n` elements, one after the other. -/
def getElements {β S : Type} (get : S → Option (β × S)) : (n : Nat) → S → Option (Stored β n × S)
  | 0, s => some (.exactly [] rfl, s)
  | n + 1, s => do
      let (b, next) ← get s
      let (others, last) ← getElements get n next
      return (.exactly (b :: others.elements) (by rw [List.length_cons, others.length]), last)

/-- Nothing throws, and every call is of this kind. -/
def Makes {C : Type} (P : C → Prop) (calls : Option (List C)) : Prop :=
  ∃ made, calls = some made ∧ ∀ call ∈ made, P call

@[simp]
theorem makes_some {C : Type} {P : C → Prop} {made : List C} :
    Makes P (some made) ↔ ∀ call ∈ made, P call := by simp [Makes]

@[simp]
theorem not_makes_none {C : Type} {P : C → Prop} : ¬Makes P none := by simp [Makes]

theorem makes_append {C : Type} {P : C → Prop} {front back : Option (List C)} :
    Makes P (do return (← front) ++ (← back)) ↔ Makes P front ∧ Makes P back := by
  cases front with
  | none => simp
  | some front =>
      cases back with
      | none => simp
      | some back => simp [or_imp, forall_and]

theorem makes_collect {α C : Type} {P : C → Prop} {calls : α → Option (List C)} (as : List α) :
    Makes P (collect calls as) ↔ ∀ a ∈ as, Makes P (calls a) := by
  induction as with
  | nil => simp [collect]
  | cons a as ih => rw [collect, makes_append, ih, List.forall_mem_cons]

/-- How the leaves are sent, and the lengths of arrays, by calls `C`. -/
structure Sender (L : Type) (V : L → Type) (C : Type) where
  put : (l : L) → V l → Option (List C)
  /-- What goes before the elements of an array of this length and capacity. -/
  putLength : (n : Length) → (capacity : Nat) → Option (List C)

/-- How they are got back by a reader with states `S`. -/
structure Receiver (L : Type) (R : L → Type) (S : Type) where
  get : (l : L) → S → Option (R l × S)
  getLength : (n : Length) → S → Option S

variable {L C S : Type} {V R : L → Type}

namespace Decl

variable (leaf : (l : L) → V l → Prop) (array : (n : Length) → (capacity : Nat) → Prop)

mutual
/-- All leaves and lengths that are sent are of this kind. -/
def AllSent : (d : Decl L) → d.Marks → d.Value V → Prop
  | .leaf l, _, v => leaf l v
  | .array n members, marks, v => array n v.capacity ∧ ∀ e ∈ v.elements, AllSentMembers members marks e
  | .record members, marks, v => AllSentMembers members marks v

def AllSentMembers : (ds : List (Decl L)) → MemberMarks ds → Values V ds → Prop
  | [], _, _ => True
  | d :: ds, (true, marks, others), (v, vs) => AllSent d marks v ∧ AllSentMembers ds others vs
  | _ :: ds, (false, _, others), (_, vs) => AllSentMembers ds others vs
end

end Decl

namespace Sender

variable (t : Sender L V C)

mutual
/-- The calls that send the marked members of a variable. -/
def serialize : (d : Decl L) → d.Marks → d.Value V → Option (List C)
  | .leaf l, _, v => t.put l v
  | .array n members, marks, v => do
      let length ← t.putLength n v.capacity
      let elements ← collect (serializeMembers members marks) v.elements
      return length ++ elements
  | .record members, marks, v => serializeMembers members marks v

def serializeMembers : (ds : List (Decl L)) → Decl.MemberMarks ds → Decl.Values V ds → Option (List C)
  | [], _, _ => some []
  | d :: ds, (true, marks, others), (v, vs) => do
      let first ← serialize d marks v
      let rest ← serializeMembers ds others vs
      return first ++ rest
  | _ :: ds, (false, _, others), (_, vs) => serializeMembers ds others vs
end

mutual
/-- Every call that sends a variable is of a kind if and only if those of all leaves and
    lengths that are sent are. -/
theorem makes_serialize_iff (P : C → Prop) (d : Decl L) (marks : d.Marks) (v : d.Value V) :
    Makes P (t.serialize d marks v) ↔
      d.AllSent (fun l v => Makes P (t.put l v)) (fun n capacity => Makes P (t.putLength n capacity))
        marks v := by
  cases d with
  | leaf l => rfl
  | array n members =>
      refine makes_append.trans (and_congr Iff.rfl ((makes_collect _).trans ?_))
      exact forall₂_congr fun e _ => makes_serializeMembers_iff P members marks e
  | record members => exact makes_serializeMembers_iff P members marks v

theorem makes_serializeMembers_iff (P : C → Prop) (ds : List (Decl L)) (marks : Decl.MemberMarks ds)
    (vs : Decl.Values V ds) : Makes P (t.serializeMembers ds marks vs) ↔
      Decl.AllSentMembers (fun l v => Makes P (t.put l v))
        (fun n capacity => Makes P (t.putLength n capacity)) ds marks vs := by
  cases ds with
  | nil => simp [serializeMembers, Decl.AllSentMembers]
  | cons d ds =>
      obtain ⟨send, marked, others⟩ := marks
      obtain ⟨v, vs⟩ := vs
      cases send with
      | true =>
          exact makes_append.trans (and_congr (makes_serialize_iff P d marked v)
            (makes_serializeMembers_iff P ds others vs))
      | false => exact makes_serializeMembers_iff P ds others vs
end

end Sender

namespace Receiver

variable (r : Receiver L R S)

mutual
/-- Get the values of all that is declared. -/
def deserialize : (d : Decl L) → S → Option (d.Value R × S)
  | .leaf l, s => r.get l s
  | .array n members, s => do
      let next ← r.getLength n s
      getElements (deserializeMembers members) n next
  | .record members, s => deserializeMembers members s

def deserializeMembers : (ds : List (Decl L)) → S → Option (Decl.Values R ds × S)
  | [], s => some ((), s)
  | d :: ds, s => do
      let (v, next) ← deserialize d s
      let (vs, last) ← deserializeMembers ds next
      return ((v, vs), last)
end

/-- What is got back follows from the answers to the calls, for the leaves and the lengths. -/
structure Follows {α K A : Type} (r : Receiver L R S) (t : Sender L V C) (result : (l : L) → V l → R l)
    (c : Coding α C K A S) : Prop where
  leaf : ∀ {l v calls s u}, t.put l v = some calls → c.Answers calls s u → r.get l s = some (result l v, u)
  length : ∀ {n capacity calls s u}, t.putLength n capacity = some calls → c.Answers calls s u →
    r.getLength n s = some u

variable {r} {t : Sender L V C} {result : (l : L) → V l → R l} {α K A : Type} {c : Coding α C K A S}

theorem getElements_collect {X Y : Type} {put : X → Option (List C)} (value : X → Y)
    (get : S → Option (Y × S)) {xs : List X}
    (each : ∀ x ∈ xs, ∀ calls s u, put x = some calls → c.Answers calls s u → get s = some (value x, u))
    {n : Nat} (number : xs.length = n) {calls : List C} (puts : collect put xs = some calls) {s u : S}
    (answers : c.Answers calls s u) :
    getElements get n s = some (.exactly (xs.map value) (by rw [List.length_map, number]), u) := by
  subst number
  induction xs generalizing calls s with
  | nil =>
      cases puts
      cases answers
      rfl
  | cons x xs ih =>
      rw [List.forall_mem_cons] at each
      simp only [collect, Option.bind_eq_bind, Option.bind_eq_some_iff, Option.pure_def,
        Option.some.injEq] at puts
      obtain ⟨first, putFirst, others, putOthers, rfl⟩ := puts
      obtain ⟨next, answersFirst, answersOthers⟩ := Coding.answers_append answers
      have gotFirst := each.1 first s next putFirst answersFirst
      have gotOthers := ih each.2 putOthers answersOthers
      simp only [List.length_cons, getElements, gotFirst, gotOthers, Option.bind_eq_bind,
        Option.bind_some, Option.pure_def]
      rfl

mutual
/-- When the calls that send a variable are answered, what is declared of it is got back. -/
theorem deserialize_of_answers (follows : r.Follows t result c) (d : Decl L) (marks : d.Marks) (v : d.Value V)
    {calls : List C} (puts : t.serialize d marks v = some calls) {s u : S} (answers : c.Answers calls s u) :
    r.deserialize (d.declared marks) s = some (d.sent result marks v, u) := by
  cases d with
  | leaf l => exact follows.leaf puts answers
  | array n members =>
      simp only [Sender.serialize, Option.bind_eq_bind, Option.bind_eq_some_iff, Option.pure_def,
        Option.some.injEq] at puts
      obtain ⟨length, putLength, elements, putElements, rfl⟩ := puts
      obtain ⟨next, answersLength, answersElements⟩ := Coding.answers_append answers
      have got := follows.length putLength answersLength
      have gotElements := getElements_collect (Decl.sentMembers result members marks) _
        (fun e _ calls s u putsOne answersOne =>
          deserializeMembers_of_answers follows members marks e putsOne answersOne)
        v.length putElements answersElements
      simp only [Decl.declared, deserialize, got, gotElements, Option.bind_eq_bind, Option.bind_some]
      rfl
  | record members => exact deserializeMembers_of_answers follows members marks v puts answers

theorem deserializeMembers_of_answers (follows : r.Follows t result c) (ds : List (Decl L))
    (marks : Decl.MemberMarks ds) (vs : Decl.Values V ds) {calls : List C}
    (puts : t.serializeMembers ds marks vs = some calls) {s u : S} (answers : c.Answers calls s u) :
    r.deserializeMembers (Decl.declaredMembers ds marks) s =
      some (Decl.sentMembers result ds marks vs, u) := by
  cases ds with
  | nil =>
      cases puts
      cases answers
      rfl
  | cons d ds =>
      obtain ⟨send, marked, others⟩ := marks
      obtain ⟨v, vs⟩ := vs
      cases send with
      | true =>
          simp only [Sender.serializeMembers, Option.bind_eq_bind, Option.bind_eq_some_iff, Option.pure_def,
            Option.some.injEq] at puts
          obtain ⟨first, putFirst, rest, putRest, rfl⟩ := puts
          obtain ⟨next, answersFirst, answersRest⟩ := Coding.answers_append answers
          have gotFirst := deserialize_of_answers follows d marked v putFirst answersFirst
          have gotRest := deserializeMembers_of_answers follows ds others vs putRest answersRest
          simp only [Decl.declaredMembers, deserializeMembers, gotFirst, gotRest, Option.bind_eq_bind,
            Option.bind_some]
          rfl
      | false => exact deserializeMembers_of_answers follows ds others vs puts answers
end

end Receiver

end Libdap
