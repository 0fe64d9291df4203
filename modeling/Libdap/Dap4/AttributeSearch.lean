import Libdap.Dap4.Attributes

/-! # Searching for an attribute by its name

`D4Attributes::find` goes into the first container that it meets and does not come out again.
-/

namespace Libdap.Dap4

namespace D4Attribute

def name : D4Attribute → List Char
  | mk name _ _ _ => name

def type : D4Attribute → D4AttributeType
  | mk _ type _ _ => type

def attributes : D4Attribute → List D4Attribute
  | mk _ _ attributes _ => attributes

theorem sizeOf_attributes (a : D4Attribute) : sizeOf a.attributes < sizeOf a := by
  cases a
  simp only [attributes, mk.sizeOf_spec]
  omega

end D4Attribute

open D4AttributeType

/-- What a search comes to: an attribute, told by its place, or a null pointer, or a read behind the end of a
list. -/
inductive Search where
  | found (place : List Nat)
  | null
  | undefined
  deriving Repr, DecidableEq

/-- `D4Attributes::find_depth_first`, from the place `at_ ++ [i]` on. Only the end of the list of the object that
was asked is known as an end. -/
def find_depth_first (name : List Char) (own : Bool) (at_ : List Nat) (i : Nat) : List D4Attribute → Search
  | [] => if own then .null else .undefined
  | a :: rest =>
    if a.name = name then .found (at_ ++ [i])
    else if a.type = attr_container_c then find_depth_first name false (at_ ++ [i]) 0 a.attributes
    else find_depth_first name own at_ (i + 1) rest
termination_by attributes => sizeOf attributes
decreasing_by
  · have less := a.sizeOf_attributes
    simp only [List.cons.sizeOf_spec]
    omega
  · simp only [List.cons.sizeOf_spec]
    omega

namespace D4Attributes

def find (attrs : List D4Attribute) (name : List Char) : Search := find_depth_first name true [] 0 attrs

/-- The attributes with their places, those of a container behind it. -/
def depthFirst (at_ : List Nat) (i : Nat) : List D4Attribute → List (List Nat × D4Attribute)
  | [] => []
  | a :: rest =>
    (at_ ++ [i], a) :: (if a.type = attr_container_c then depthFirst (at_ ++ [i]) 0 a.attributes else []) ++
      depthFirst at_ (i + 1) rest
termination_by attributes => sizeOf attributes
decreasing_by
  · have less := a.sizeOf_attributes
    simp only [List.cons.sizeOf_spec]
    omega
  · simp only [List.cons.sizeOf_spec]
    omega

/-- The first attribute with the name. -/
def first (at_ : List Nat) (i : Nat) (attrs : List D4Attribute) (name : List Char) : Search :=
  match (depthFirst at_ i attrs).find? (fun a => a.2.name = name) with
  | some (place, _) => .found place
  | none => .null

/-- There is an attribute with the name such that every container that comes before it is one that it is in. -/
inductive Ahead (name : List Char) : List D4Attribute → Prop
  | here {a : D4Attribute} {rest : List D4Attribute} : a.name = name → Ahead name (a :: rest)
  | inside {a : D4Attribute} {rest : List D4Attribute} :
      a.type = attr_container_c → Ahead name a.attributes → Ahead name (a :: rest)
  | behind {a : D4Attribute} {rest : List D4Attribute} :
      a.type ≠ attr_container_c → Ahead name rest → Ahead name (a :: rest)

section

variable {name : List Char} {a : D4Attribute} {rest attrs : List D4Attribute} {at_ : List Nat} {i : Nat}

theorem first_here (here : a.name = name) : first at_ i (a :: rest) name = .found (at_ ++ [i]) := by
  simp only [first, depthFirst, List.cons_append, List.find?_cons, here, decide_true]

theorem first_inside (other : a.name ≠ name) (container : a.type = attr_container_c) {place : List Nat}
    (inside : first (at_ ++ [i]) 0 a.attributes name = .found place) : first at_ i (a :: rest) name = .found place := by
  unfold first at inside ⊢
  rw [depthFirst, if_pos container, List.cons_append, List.find?_cons_of_neg (by simpa using other), List.find?_append]
  cases found : (depthFirst (at_ ++ [i]) 0 a.attributes).find? (fun a => a.2.name = name) with
  | none =>
      rw [found] at inside
      cases inside
  | some b =>
      rw [found] at inside
      rw [Option.some_or]
      exact inside

theorem first_behind (other : a.name ≠ name) (plain : a.type ≠ attr_container_c) :
    first at_ i (a :: rest) name = first at_ (i + 1) rest name := by
  rw [first, depthFirst, if_neg plain, List.singleton_append, List.find?_cons_of_neg (by simpa using other), first]

theorem first_ne_undefined : first at_ i attrs name ≠ .undefined := by
  unfold first
  split
  · exact Search.noConfusion
  · exact Search.noConfusion

/-- The search goes straight to such an attribute, and it is the first. -/
theorem find_of_ahead (ahead : Ahead name attrs) (own : Bool) (at_ : List Nat) (i : Nat) :
    ∃ place, find_depth_first name own at_ i attrs = .found place ∧ first at_ i attrs name = .found place := by
  induction ahead generalizing own at_ i with
  | here same => exact ⟨_, by rw [find_depth_first, if_pos same], first_here same⟩
  | @inside a rest container _ ih =>
      by_cases same : a.name = name
      · exact ⟨_, by rw [find_depth_first, if_pos same], first_here same⟩
      · obtain ⟨place, found, inside⟩ := ih false (at_ ++ [i]) 0
        exact ⟨place, by rw [find_depth_first, if_neg same, if_pos container, found], first_inside same container inside⟩
  | @behind a rest plain _ ih =>
      by_cases same : a.name = name
      · exact ⟨_, by rw [find_depth_first, if_pos same], first_here same⟩
      · obtain ⟨place, found, behind⟩ := ih own at_ (i + 1)
        exact ⟨place, by rw [find_depth_first, if_neg same, if_neg plain, found], (first_behind same plain).trans behind⟩

/-- Without one it comes to the end of a list, which is known as one when no container was met. -/
theorem find_of_not_ahead (not_ahead : ¬Ahead name attrs) (own : Bool) (at_ : List Nat) (i : Nat) :
    find_depth_first name own at_ i attrs =
      if own = true ∧ ∀ a ∈ attrs, a.type ≠ attr_container_c then .null else .undefined := by
  fun_induction find_depth_first name own at_ i attrs with
  | case1 at_ i => exact (if_pos ⟨rfl, List.forall_mem_nil _⟩).symm
  | case2 own at_ i other => exact (if_neg fun both => other both.1).symm
  | case3 own at_ i a rest same => exact absurd (.here same) not_ahead
  | case4 own at_ i a rest other container ih =>
      have outside : ¬(own = true ∧ ∀ b ∈ a :: rest, b.type ≠ attr_container_c) :=
        fun both => both.2 a List.mem_cons_self container
      rw [ih fun ahead => not_ahead (.inside container ahead), if_neg outside]
      exact if_neg fun both => Bool.false_ne_true both.1
  | case5 own at_ i a rest other plain ih =>
      rw [ih fun ahead => not_ahead (.behind plain ahead)]
      simp only [List.forall_mem_cons, plain, not_false_eq_true, true_and, ne_eq]

/-- There is nothing to be found in a list without containers. -/
theorem first_of_not_ahead (not_ahead : ¬Ahead name attrs) (plain : ∀ a ∈ attrs, a.type ≠ attr_container_c) (at_ : List Nat)
    (i : Nat) : first at_ i attrs name = .null := by
  induction attrs generalizing i with
  | nil => rw [first, depthFirst, List.find?_nil]
  | cons a rest ih =>
      obtain ⟨plain, others⟩ := List.forall_mem_cons.mp plain
      rw [first_behind (fun same => not_ahead (.here same)) plain]
      exact ih (fun ahead => not_ahead (.behind plain ahead)) others (i + 1)

end

/-- The first attribute with the name, or a null pointer, is what comes of a search when no container has to be
left again: those before the attribute are around it, or there are none. -/
theorem find_eq_first_iff (attrs : List D4Attribute) (name : List Char) :
    find attrs name = first [] 0 attrs name ↔ Ahead name attrs ∨ ∀ a ∈ attrs, a.type ≠ attr_container_c := by
  by_cases ahead : Ahead name attrs
  · obtain ⟨place, found, same⟩ := find_of_ahead ahead true [] 0
    exact iff_of_true (found.trans same.symm) (.inl ahead)
  · rw [find, find_of_not_ahead ahead]
    by_cases plain : ∀ a ∈ attrs, a.type ≠ attr_container_c
    · rw [if_pos ⟨rfl, plain⟩, first_of_not_ahead ahead plain]
      exact iff_of_true rfl (.inr plain)
    · rw [if_neg fun both => plain both.2]
      exact iff_of_false (fun same => first_ne_undefined same.symm) (not_or.mpr ⟨ahead, plain⟩)

/-- An attribute behind a container that does not have it. -/
theorem behind_container_missed : ¬∀ attrs name, find attrs name = first [] 0 attrs name := by
  intro all
  have same := all [.mk ['c'] attr_container_c [.mk ['a'] attr_str_c [] []] [], .mk ['b'] attr_str_c [] []] ['b']
  rcases (find_eq_first_iff _ _).mp same with ahead | plain
  · cases ahead with
    | here same => exact absurd same (by decide)
    | inside container ahead =>
        cases ahead with
        | here same => exact absurd same (by decide)
        | inside container => exact absurd container (by decide)
        | behind plain ahead => cases ahead
    | behind plain => exact plain rfl
  · exact plain _ List.mem_cons_self rfl

end D4Attributes

end Libdap.Dap4
