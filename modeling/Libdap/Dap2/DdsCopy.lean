import Libdap.Dap2.AttrTableRuns
import Libdap.Dap4.Attributes

/-! # Copies of a DDS

A variable and the attribute tables of a DDS are copied with all that is below them. The
parents of variables are left out.
-/

namespace Libdap.Dap2

open Dap4 (Name D4Attribute)

/-- A variable: what the fields of its class hold, its attributes, and the variables that belong to it,
    which are its members, the template for its elements, or what holds its values. -/
inductive Variable (α : Type) where
  | mk (addr : Nat) (own : α) (d_attr : AttrTable) (d_attributes : Option (List D4Attribute)) (vars : List (Variable α))

namespace Variable

variable {α : Type}

mutual

/-- `ptr_duplicate`. -/
def copy : Variable α → Store → Option (Variable α × Store)
  | .mk _ own d_attr d_attributes vars, s => do
    let (d_attr', s₁) ← AttrTable.copy d_attr.d_name d_attr.attr_map { s with next := s.next + 1 }
    let (vars', s₂) ← copyIn vars s₁
    some (.mk s.next own d_attr' d_attributes vars', s₂)

def copyIn : List (Variable α) → Store → Option (List (Variable α) × Store)
  | [], s => some ([], s)
  | b :: bs, s => do
    let (b', s) ← copy b s
    let (bs', s) ← copyIn bs s
    some (b' :: bs', s)

end

section

variable (c : Nat) (b : Variable α)

mutual

/-- Add a variable to the Structure with an address. -/
def push : Variable α → Variable α
  | .mk addr own d_attr d_attributes vars =>
    if addr = c then .mk addr own d_attr d_attributes (vars ++ [b]) else .mk addr own d_attr d_attributes (pushIn vars)

def pushIn : List (Variable α) → List (Variable α)
  | [] => []
  | x :: xs => push x :: pushIn xs

end

end

mutual

/-- Set parents of tables, each at its address. -/
def reparent (moved : List (Nat × Nat)) : Variable α → Variable α
  | .mk addr own d_attr d_attributes vars => .mk addr own (d_attr.reparent moved) d_attributes (reparentIn moved vars)

def reparentIn (moved : List (Nat × Nat)) : List (Variable α) → List (Variable α)
  | [] => []
  | b :: bs => reparent moved b :: reparentIn moved bs

end

mutual

/-- What belongs to the attributes of a variable. -/
def holds : Variable α → List Ref
  | .mk _ _ d_attr _ vars => d_attr.holds ++ holdsIn vars

def holdsIn : List (Variable α) → List Ref
  | [] => []
  | b :: bs => holds b ++ holdsIn bs

end

mutual

/-- What the aliases in the attributes of a variable stand for. -/
def aliased : Variable α → List Ref
  | .mk _ _ d_attr _ vars => d_attr.aliased ++ aliasedIn vars

def aliasedIn : List (Variable α) → List Ref
  | [] => []
  | b :: bs => aliased b ++ aliasedIn bs

end

end Variable

namespace DDS

/-- The fields of a DDS that are copied as they are. -/
structure Info where
  d_factory : Option Nat
  d_name : Name
  d_filename : Name
  d_container_name : Name
  d_dap_major : Int
  d_dap_minor : Int
  d_dap_version : Name
  d_request_xml_base : Name
  d_namespace : Name
  d_timeout : Int
  d_max_response_size : Int
  deriving Repr, DecidableEq

end DDS

/-- A DDS. It has the address of its current container. -/
structure DDS (α : Type) extends DDS.Info where
  addr : Nat
  d_container : Option Nat
  d_attr : AttrTable
  vars : List (Variable α)

namespace DDS

variable {α : Type}

def reparent (moved : List (Nat × Nat)) (dds : DDS α) : DDS α :=
  { dds with d_attr := dds.d_attr.reparent moved, vars := Variable.reparentIn moved dds.vars }

/-- `add_var` of a top level variable of the source. -/
def add_var (i : Nat) (target dds : DDS α) (s : Store) : Option (DDS α × DDS α × Store) := do
  let bt ← dds.vars[i]?
  let (btp, s) ← bt.copy s
  match target.d_container with
  | some c =>
    -- the container makes a copy of its own, and it need not belong to the target
    let (bt', s) ← bt.copy s
    some ({ target with vars := Variable.pushIn c bt' target.vars }, { dds with vars := Variable.pushIn c bt' dds.vars }, s)
  | none => some ({ target with vars := target.vars ++ [btp] }, dds, s)

/-- The loop of `duplicate`. -/
def add_vars : Nat → Nat → DDS α → DDS α → Store → Option (DDS α × DDS α × Store)
  | 0, _, target, dds, s => some (target, dds, s)
  | n + 1, i, target, dds, s => do
    let (target, dds, s) ← add_var i target dds s
    add_vars n (i + 1) target dds s

/-- `duplicate`, with the target and the source afterwards. -/
def duplicate (target dds : DDS α) (s : Store) : Option (DDS α × DDS α × Store) := do
  let (attr_map, s) ← Entry.copyIn target.d_attr.addr dds.d_attr.attr_map s
  let copied := ⟨dds.toInfo, target.addr, dds.d_container, ⟨⟨dds.d_attr.d_name, none, attr_map⟩, target.d_attr.addr⟩, target.vars⟩
  let (target, dds, s) ← add_vars dds.vars.length 0 copied dds s
  some (target.reparent s.moved, dds.reparent s.moved, { s with moved := [] })

/-- The copy constructor. -/
def copy (dds : DDS α) (s : Store) : Option (DDS α × DDS α × Store) :=
  duplicate ⟨dds.toInfo, s.next, none, ⟨⟨[], none, []⟩, s.next + 1⟩, []⟩ dds { s with next := s.next + 2 }

/-- `operator=`. -/
def assign (target dds : DDS α) (s : Store) : Option (DDS α × DDS α × Store) :=
  if target.addr = dds.addr then some (target, dds, s) else duplicate target dds s

end DDS

/-! ## What is in attributes and variables -/

namespace Entry

/-- An entry with its values, and without the tables' addresses and parents. -/
inductive Shown where
  | attr (name : Name) (type : AttrType) (aliased_to : Option Name) (values : Option (List Name))
  | containerAlias (name : Name) (aliased_to : Name) (attributes : Nat)
  | container (name : Name) (d_name : Name) (attr_map : List Shown)

mutual

def shown (vectors : List (List Name)) : Entry → Shown
  | .attr name type aliased_to values => .attr name type aliased_to (values.bind (vectors[·]?))
  | .containerAlias name aliased_to attributes => .containerAlias name aliased_to attributes
  | .container name _ d_name _ attr_map => .container name d_name (shownIn vectors attr_map)

def shownIn (vectors : List (List Name)) : List Entry → List Shown
  | [] => []
  | e :: es => shown vectors e :: shownIn vectors es

end

section

variable (vectors : List (List Name)) (next : Nat)

mutual

/-- The vectors of the entry are there, and an attribute of a type has one. -/
def Valid : Entry → Prop
  | .attr _ type _ values => type ≠ .container ∧ (∀ v ∈ values, v < vectors.length) ∧ (type ≠ .unknown → values ≠ none)
  | .containerAlias .. => True
  | .container _ _ _ d_parent attr_map => (∀ p ∈ d_parent, p < next) ∧ ValidIn attr_map

def ValidIn : List Entry → Prop
  | [] => True
  | e :: es => Valid e ∧ ValidIn es

end

end

mutual

/-- No attribute of an unknown type has values. -/
def Typed : Entry → Prop
  | .attr _ type _ values => type = .unknown → values = none
  | .containerAlias .. => True
  | .container _ _ _ _ attr_map => TypedIn attr_map

def TypedIn : List Entry → Prop
  | [] => True
  | e :: es => Typed e ∧ TypedIn es

end

end Entry

namespace Variable

variable {α : Type}

/-- A variable with its attributes. -/
inductive Shown (α : Type) where
  | mk (own : α) (d_name : Name) (attr_map : List Entry.Shown) (d_attributes : Option (List D4Attribute)) (vars : List (Shown α))

mutual

def shown (vectors : List (List Name)) : Variable α → Shown α
  | .mk _ own d_attr d_attributes vars =>
    .mk own d_attr.d_name (Entry.shownIn vectors d_attr.attr_map) d_attributes (shownIn vectors vars)

def shownIn (vectors : List (List Name)) : List (Variable α) → List (Shown α)
  | [] => []
  | b :: bs => shown vectors b :: shownIn vectors bs

end

section

variable (vectors : List (List Name)) (next : Nat)

mutual

def Valid : Variable α → Prop
  | .mk _ _ d_attr _ vars =>
    (∀ p ∈ d_attr.d_parent, p < next) ∧ Entry.ValidIn vectors next d_attr.attr_map ∧ ValidIn vars

def ValidIn : List (Variable α) → Prop
  | [] => True
  | b :: bs => Valid b ∧ ValidIn bs

end

end

mutual

def Typed : Variable α → Prop
  | .mk _ _ d_attr _ vars => Entry.TypedIn d_attr.attr_map ∧ TypedIn vars

def TypedIn : List (Variable α) → Prop
  | [] => True
  | b :: bs => Typed b ∧ TypedIn bs

end

end Variable

/-! ## What a copy does -/

/-- What copying does to the store, when it comes to the aliases of some tables. A table gets this parent
    or a new one. -/
structure Grew (parent : Nat) (refs : List Ref) (s s' : Store) : Prop where
  vectors : s.vectors <+: s'.vectors
  next : s.next ≤ s'.next
  moved : ∃ m, s'.moved = m ++ s.moved ∧ (∀ k, k ∈ m.map Prod.fst ↔ .table k ∈ refs) ∧
    ∀ x ∈ m, x.2 = parent ∨ s.next ≤ x.2

namespace Grew

variable {parent parent' : Nat} {refs refs' : List Ref} {s s₁ s₂ : Store}

theorem refl (parent : Nat) (s : Store) : Grew parent [] s s where
  vectors := List.prefix_rfl
  next := le_rfl
  moved := ⟨[], rfl, by simp, by simp⟩

theorem trans (first : Grew parent refs s s₁) (rest : Grew parent refs' s₁ s₂) : Grew parent (refs ++ refs') s s₂ where
  vectors := first.vectors.trans rest.vectors
  next := first.next.trans rest.next
  moved := by
    obtain ⟨m, moved, keys, parents⟩ := first.moved
    obtain ⟨m', moved', keys', parents'⟩ := rest.moved
    refine ⟨m' ++ m, by rw [moved', moved, List.append_assoc], ?_, ?_⟩
    · intro k
      rw [List.map_append, List.mem_append, List.mem_append, keys, keys', or_comm]
    · intro x mem
      rcases List.mem_append.mp mem with mem | mem
      · exact (parents' x mem).imp_right first.next.trans
      · exact parents x mem

/-- The new parents are those of a table that is new itself. -/
theorem inner {n : Nat} (grew : Grew parent refs { s with next := n } s₁) (next : s.next ≤ n) (new : s.next ≤ parent) :
    Grew parent' refs s s₁ where
  vectors := grew.vectors
  next := next.trans grew.next
  moved := by
    obtain ⟨m, moved, keys, parents⟩ := grew.moved
    refine ⟨m, moved, keys, ?_⟩
    intro x mem
    rcases parents x mem with same | fresh
    · exact .inr (same ▸ new)
    · exact .inr (next.trans fresh)

end Grew

namespace Entry

section

variable {vectors vectors' : List (List Name)} {next : Nat}

mutual

theorem Valid.longer (longer : vectors <+: vectors') : {e : Entry} → Valid vectors next e → Valid vectors' next e
  | .attr name type aliased_to values => by
      intro valid
      rw [Valid] at valid ⊢
      exact ⟨valid.1, fun v mem => (valid.2.1 v mem).trans_le longer.length_le, valid.2.2⟩
  | .containerAlias .. => by
      intro _
      rw [Valid]
      trivial
  | .container .. => by
      intro valid
      rw [Valid] at valid ⊢
      exact ⟨valid.1, valid.2.longer longer⟩

theorem ValidIn.longer (longer : vectors <+: vectors') : {es : List Entry} → ValidIn vectors next es → ValidIn vectors' next es
  | [] => id
  | _ :: _ => by
      intro valid
      rw [ValidIn] at valid ⊢
      exact ⟨valid.1.longer longer, valid.2.longer longer⟩

end

mutual

theorem shown_longer (longer : vectors <+: vectors') (e : Entry) (valid : Valid vectors next e) :
    shown vectors' e = shown vectors e := by
  cases e with
  | attr name type aliased_to values =>
      rw [Valid] at valid
      rw [shown, shown]
      cases values with
      | none => rfl
      | some v =>
          have at_ : vectors[v]? = some _ := List.getElem?_eq_getElem (valid.2.1 v rfl)
          change Shown.attr name type aliased_to vectors'[v]? = Shown.attr name type aliased_to vectors[v]?
          rw [at_, kept longer at_]
  | containerAlias => rw [shown, shown]
  | container name addr d_name d_parent attr_map =>
      rw [Valid] at valid
      rw [shown, shown, shownIn_longer longer attr_map valid.2]

theorem shownIn_longer (longer : vectors <+: vectors') (es : List Entry) (valid : ValidIn vectors next es) :
    shownIn vectors' es = shownIn vectors es := by
  cases es with
  | nil => rw [shownIn, shownIn]
  | cons e es =>
      rw [ValidIn] at valid
      rw [shownIn, shownIn, shown_longer longer e valid.1, shownIn_longer longer es valid.2]

end

end

theorem copy_attr_shown (parent : Nat) {name : Name} {type : AttrType} {aliased_to : Option Name} {values : Option Nat}
    {s : Store} {next : Nat} (valid : Valid s.vectors next (.attr name type aliased_to values)) :
    ∃ e' s', copy parent (.attr name type aliased_to values) s = some (e', s') ∧
      Grew parent (aliased (.attr name type aliased_to values)) s s' ∧
      ∀ vectors, s'.vectors <+: vectors → (shown vectors e' = shown s.vectors (.attr name type aliased_to values) ↔
        Typed (.attr name type aliased_to values)) := by
  have none_of (s' : Store) (vectors : s.vectors <+: s'.vectors) (next : s.next ≤ s'.next) (moved : s'.moved = s.moved) :
      Grew parent (aliased (.attr name type aliased_to values)) s s' := by
    refine ⟨vectors, next, [], moved, ?_, List.forall_mem_nil _⟩
    intro k
    cases aliased_to <;> simp [aliased]
  rw [Valid] at valid
  obtain ⟨table, there, some_⟩ := valid
  by_cases unknown : type = .unknown
  · subst unknown
    refine ⟨.attr name .unknown aliased_to none, s, by rw [copy], none_of s List.prefix_rfl le_rfl rfl, ?_⟩
    intro vectors _
    rw [shown, shown, Typed]
    cases values with
    | none => simp
    | some v =>
        have at_ : s.vectors[v]? = some _ := List.getElem?_eq_getElem (there v rfl)
        simp [at_]
  · obtain ⟨v, rfl⟩ := Option.ne_none_iff_exists'.mp (some_ unknown)
    obtain ⟨l, at_⟩ : ∃ l, s.vectors[v]? = some l := ⟨_, List.getElem?_eq_getElem (there v rfl)⟩
    have typed : Typed (.attr name type aliased_to (some v)) := by
      rw [Typed]
      exact fun no => absurd no unknown
    cases aliased_to with
    | some source =>
        refine ⟨.attr name type (some source) (some v), s, ?_, none_of s List.prefix_rfl le_rfl rfl, ?_⟩
        · cases type <;> first | rfl | contradiction
        · intro vectors longer
          refine iff_of_true ?_ typed
          simp only [shown, Option.bind_some, at_, kept longer at_]
    | none =>
        refine ⟨.attr name type none (some s.vectors.length), s.newVector l, ?_,
          none_of _ (List.prefix_append _ _) le_rfl rfl, ?_⟩
        · cases type <;> first | contradiction | simp only [copy, at_, Option.bind_eq_bind, Option.bind_some]
        · intro vectors longer
          refine iff_of_true ?_ typed
          have last : (s.newVector l).vectors[s.vectors.length]? = some l := List.getElem?_concat_length
          simp only [shown, Option.bind_some, at_, kept longer last]

mutual

/-- The copy of an entry shows the same when no values of an unknown type are lost. -/
theorem copy_shown (parent : Nat) (e : Entry) {s : Store} {next : Nat} (valid : Valid s.vectors next e) :
    ∃ e' s', copy parent e s = some (e', s') ∧ Grew parent e.aliased s s' ∧
      ∀ vectors, s'.vectors <+: vectors → (shown vectors e' = shown s.vectors e ↔ Typed e) := by
  cases e with
  | attr name type aliased_to values => exact copy_attr_shown parent valid
  | containerAlias name aliased_to attributes =>
      refine ⟨_, s.move attributes parent, by rw [copy], ⟨List.prefix_rfl, le_rfl, [(attributes, parent)], rfl, ?_, ?_⟩, ?_⟩
      · intro k
        simp [aliased]
      · intro x mem
        rw [List.mem_singleton.mp mem]
        exact .inl rfl
      · intro vectors _
        simp [shown, Typed]
  | container name addr d_name d_parent attr_map =>
      rw [Valid] at valid
      obtain ⟨es, s', done, grew, same⟩ := copyIn_shown s.next attr_map (s := { s with next := s.next + 1 }) valid.2
      refine ⟨.container name s.next d_name (some parent) es, s', by rw [copy, done]; rfl, ?_, ?_⟩
      · rw [aliased]
        exact grew.inner (Nat.le_succ _) le_rfl
      · intro vectors longer
        rw [shown, shown, Typed, Shown.container.injEq, ← same vectors longer]
        exact ⟨fun both => both.2.2, fun alike => ⟨rfl, rfl, alike⟩⟩

theorem copyIn_shown (parent : Nat) (es : List Entry) {s : Store} {next : Nat} (valid : ValidIn s.vectors next es) :
    ∃ es' s', copyIn parent es s = some (es', s') ∧ Grew parent (aliasedIn es) s s' ∧
      ∀ vectors, s'.vectors <+: vectors → (shownIn vectors es' = shownIn s.vectors es ↔ TypedIn es) := by
  cases es with
  | nil =>
      refine ⟨[], s, by rw [copyIn], ?_, ?_⟩
      · rw [aliasedIn]
        exact .refl parent s
      · intro vectors _
        simp [shownIn, TypedIn]
  | cons e es =>
      rw [ValidIn] at valid
      obtain ⟨e', s₁, one, grew, same⟩ := copy_shown parent e valid.1
      obtain ⟨es', s₂, others, grew', same'⟩ := copyIn_shown parent es (valid.2.longer grew.vectors)
      refine ⟨e' :: es', s₂, by rw [copyIn, one, Option.bind_eq_bind, Option.bind_some]; simp only [others]; rfl, ?_, ?_⟩
      · rw [aliasedIn]
        exact grew.trans grew'
      · intro vectors longer
        rw [shownIn, shownIn, TypedIn, List.cons.injEq, ← same vectors (grew'.vectors.trans longer),
          ← same' vectors longer, shownIn_longer grew.vectors es valid.2]

end

end Entry

namespace Variable

variable {α : Type} {vectors vectors' : List (List Name)} {next : Nat}

mutual

theorem Valid.longer (longer : vectors <+: vectors') : {b : Variable α} → Valid vectors next b → Valid vectors' next b
  | .mk .. => by
      intro valid
      rw [Valid] at valid ⊢
      exact ⟨valid.1, valid.2.1.longer longer, valid.2.2.longer longer⟩

theorem ValidIn.longer (longer : vectors <+: vectors') :
    {bs : List (Variable α)} → ValidIn vectors next bs → ValidIn vectors' next bs
  | [] => id
  | _ :: _ => by
      intro valid
      rw [ValidIn] at valid ⊢
      exact ⟨valid.1.longer longer, valid.2.longer longer⟩

end

mutual

theorem shown_longer (longer : vectors <+: vectors') (b : Variable α) (valid : Valid vectors next b) :
    shown vectors' b = shown vectors b := by
  cases b with
  | mk addr own d_attr d_attributes vars =>
      rw [Valid] at valid
      rw [shown, shown, Entry.shownIn_longer longer _ valid.2.1, shownIn_longer longer vars valid.2.2]

theorem shownIn_longer (longer : vectors <+: vectors') (bs : List (Variable α)) (valid : ValidIn vectors next bs) :
    shownIn vectors' bs = shownIn vectors bs := by
  cases bs with
  | nil => rw [shownIn, shownIn]
  | cons b bs =>
      rw [ValidIn] at valid
      rw [shownIn, shownIn, shown_longer longer b valid.1, shownIn_longer longer bs valid.2]

end

mutual

theorem copy_shown (b : Variable α) {s : Store} {next : Nat} (valid : Valid s.vectors next b) (parent : Nat) :
    ∃ b' s', copy b s = some (b', s') ∧ Grew parent b.aliased s s' ∧
      ∀ vectors, s'.vectors <+: vectors → (shown vectors b' = shown s.vectors b ↔ Typed b) := by
  cases b with
  | mk addr own d_attr d_attributes vars =>
      rw [Valid] at valid
      obtain ⟨es, s₁, one, grew, same⟩ := Entry.copyIn_shown (s.next + 1) d_attr.attr_map
        (s := { s with next := s.next + 2 }) valid.2.1
      obtain ⟨vars', s₂, others, grew', same'⟩ := copyIn_shown vars (valid.2.2.longer grew.vectors) parent
      refine ⟨.mk s.next own ⟨⟨d_attr.d_name, none, es⟩, s.next + 1⟩ d_attributes vars', s₂, ?_, ?_, ?_⟩
      · have table : AttrTable.copy d_attr.d_name d_attr.attr_map { s with next := s.next + 1 } =
            some (⟨⟨d_attr.d_name, none, es⟩, s.next + 1⟩, s₁) := by
          rw [AttrTable.copy, one]
          rfl
        rw [copy, table, Option.bind_eq_bind, Option.bind_some]
        simp only [others]
        rfl
      · rw [aliased]
        exact (grew.inner (Nat.le_add_right _ 2) (Nat.le_succ _)).trans grew'
      · intro vectors longer
        rw [shown, shown, Typed, Shown.mk.injEq, ← same vectors (grew'.vectors.trans longer), ← same' vectors longer,
          shownIn_longer grew.vectors vars valid.2.2]
        exact ⟨fun all => ⟨all.2.2.1, all.2.2.2.2⟩, fun both => ⟨rfl, rfl, both.1, rfl, both.2⟩⟩

theorem copyIn_shown (bs : List (Variable α)) {s : Store} {next : Nat} (valid : ValidIn s.vectors next bs)
    (parent : Nat) :
    ∃ bs' s', copyIn bs s = some (bs', s') ∧ Grew parent (aliasedIn bs) s s' ∧
      ∀ vectors, s'.vectors <+: vectors → (shownIn vectors bs' = shownIn s.vectors bs ↔ TypedIn bs) := by
  cases bs with
  | nil =>
      refine ⟨[], s, by rw [copyIn], ?_, ?_⟩
      · rw [aliasedIn]
        exact .refl parent s
      · intro vectors _
        simp [shownIn, TypedIn]
  | cons b bs =>
      rw [ValidIn] at valid
      obtain ⟨b', s₁, one, grew, same⟩ := copy_shown b valid.1 parent
      obtain ⟨bs', s₂, others, grew', same'⟩ := copyIn_shown bs (valid.2.longer grew.vectors) parent
      refine ⟨b' :: bs', s₂, by rw [copyIn, one, Option.bind_eq_bind, Option.bind_some]; simp only [others]; rfl, ?_, ?_⟩
      · rw [aliasedIn]
        exact grew.trans grew'
      · intro vectors longer
        rw [shownIn, shownIn, TypedIn, List.cons.injEq, ← same vectors (grew'.vectors.trans longer),
          ← same' vectors longer, shownIn_longer grew.vectors bs valid.2]

end

end Variable

/-! ## Parents -/

section

variable {moved : List (Nat × Nat)} {next : Nat}

theorem lookup_or_eq (old : Option Nat) (k : Nat) (oldOnes : ∀ p ∈ old, p < next) (new : ∀ x ∈ moved, next ≤ x.2)
    (same : (moved.lookup k).or old = old) : moved.lookup k = none := by
  cases there : moved.lookup k with
  | none => rfl
  | some p =>
      rw [there, Option.some_or] at same
      have below := oldOnes p same.symm
      have above : next ≤ p := by
        obtain ⟨l₁, l₂, rfl, -⟩ := List.lookup_eq_some_iff.mp there
        exact new (k, p) (by simp)
      omega

namespace Entry

variable {vectors : List (List Name)}

mutual

theorem reparent_self (e : Entry) (apart : ∀ k, .table k ∈ e.holds → moved.lookup k = none) : e.reparent moved = e := by
  cases e with
  | attr | containerAlias => rw [reparent]
  | container name addr d_name d_parent attr_map =>
      rw [holds] at apart
      rw [reparent, apart addr List.mem_cons_self, Option.none_or,
        reparentIn_self attr_map fun k mem => apart k (List.mem_cons_of_mem _ mem)]

theorem reparentIn_self (es : List Entry) (apart : ∀ k, .table k ∈ holdsIn es → moved.lookup k = none) :
    reparentIn moved es = es := by
  cases es with
  | nil => rw [reparentIn]
  | cons e es =>
      rw [holdsIn] at apart
      rw [reparentIn, reparent_self e fun k mem => apart k (List.mem_append_left _ mem),
        reparentIn_self es fun k mem => apart k (List.mem_append_right _ mem)]

end

mutual

theorem apart_of_reparent (new : ∀ x ∈ moved, next ≤ x.2) (e : Entry) (valid : Valid vectors next e)
    (same : e.reparent moved = e) {k : Nat} (mem : .table k ∈ e.holds) : moved.lookup k = none := by
  cases e with
  | attr name type aliased_to values =>
      cases aliased_to <;> simp [holds] at mem
  | containerAlias => simp [holds] at mem
  | container name addr d_name d_parent attr_map =>
      rw [Valid] at valid
      rw [reparent, Entry.container.injEq] at same
      rw [holds] at mem
      rcases List.mem_cons.mp mem with here | mem
      · obtain rfl := Ref.table.inj here
        exact lookup_or_eq d_parent k valid.1 new same.2.2.2.1
      · exact apart_of_reparentIn new attr_map valid.2 same.2.2.2.2 mem

theorem apart_of_reparentIn (new : ∀ x ∈ moved, next ≤ x.2) (es : List Entry) (valid : ValidIn vectors next es)
    (same : reparentIn moved es = es) {k : Nat} (mem : .table k ∈ holdsIn es) : moved.lookup k = none := by
  cases es with
  | nil => simp [holdsIn] at mem
  | cons e es =>
      rw [ValidIn] at valid
      rw [reparentIn, List.cons.injEq] at same
      rw [holdsIn] at mem
      rcases List.mem_append.mp mem with mem | mem
      · exact apart_of_reparent new e valid.1 same.1 mem
      · exact apart_of_reparentIn new es valid.2 same.2 mem

end

section

variable (vectors : List (List Name))

mutual

theorem shown_reparent (e : Entry) : (e.reparent moved).shown vectors = e.shown vectors := by
  cases e with
  | attr | containerAlias => rw [reparent]
  | container name addr d_name d_parent attr_map =>
      rw [reparent, shown, shown, shownIn_reparent attr_map]

theorem shownIn_reparent (es : List Entry) : shownIn vectors (reparentIn moved es) = shownIn vectors es := by
  cases es with
  | nil => rw [reparentIn]
  | cons e es => rw [reparentIn, shownIn, shownIn, shown_reparent e, shownIn_reparent es]

end

end

end Entry

namespace AttrTable

theorem reparent_self {t : AttrTable} (apart : ∀ k, .table k ∈ t.holds → moved.lookup k = none) : t.reparent moved = t := by
  rw [reparent, apart t.addr List.mem_cons_self, Option.none_or,
    Entry.reparentIn_self t.attr_map fun k mem => apart k (List.mem_cons_of_mem _ mem)]

theorem apart_of_reparent {vectors : List (List Name)} (new : ∀ x ∈ moved, next ≤ x.2) {t : AttrTable}
    (parent : ∀ p ∈ t.d_parent, p < next) (valid : Entry.ValidIn vectors next t.attr_map) (same : t.reparent moved = t)
    {k : Nat} (mem : .table k ∈ t.holds) : moved.lookup k = none := by
  have parents : (moved.lookup t.addr).or t.d_parent = t.d_parent := congrArg (·.toNode.d_parent) same
  have entries : Entry.reparentIn moved t.attr_map = t.attr_map := congrArg (·.toNode.attr_map) same
  rcases List.mem_cons.mp mem with here | mem
  · rw [Ref.table.inj here]
    exact lookup_or_eq t.d_parent t.addr parent new parents
  · exact Entry.apart_of_reparentIn new t.attr_map valid entries mem

end AttrTable

namespace Variable

variable {α : Type} {vectors : List (List Name)}

mutual

theorem reparent_self (b : Variable α) (apart : ∀ k, .table k ∈ b.holds → moved.lookup k = none) : b.reparent moved = b := by
  cases b with
  | mk addr own d_attr d_attributes vars =>
      rw [holds] at apart
      rw [reparent, AttrTable.reparent_self fun k mem => apart k (List.mem_append_left _ mem),
        reparentIn_self vars fun k mem => apart k (List.mem_append_right _ mem)]

theorem reparentIn_self (bs : List (Variable α)) (apart : ∀ k, .table k ∈ holdsIn bs → moved.lookup k = none) :
    reparentIn moved bs = bs := by
  cases bs with
  | nil => rw [reparentIn]
  | cons b bs =>
      rw [holdsIn] at apart
      rw [reparentIn, reparent_self b fun k mem => apart k (List.mem_append_left _ mem),
        reparentIn_self bs fun k mem => apart k (List.mem_append_right _ mem)]

end

mutual

theorem apart_of_reparent (new : ∀ x ∈ moved, next ≤ x.2) (b : Variable α) (valid : Valid vectors next b)
    (same : b.reparent moved = b) {k : Nat} (mem : .table k ∈ b.holds) : moved.lookup k = none := by
  cases b with
  | mk addr own d_attr d_attributes vars =>
      rw [Valid] at valid
      rw [reparent, Variable.mk.injEq] at same
      rw [holds] at mem
      rcases List.mem_append.mp mem with mem | mem
      · exact AttrTable.apart_of_reparent new valid.1 valid.2.1 same.2.2.1 mem
      · exact apart_of_reparentIn new vars valid.2.2 same.2.2.2.2 mem

theorem apart_of_reparentIn (new : ∀ x ∈ moved, next ≤ x.2) (bs : List (Variable α)) (valid : ValidIn vectors next bs)
    (same : reparentIn moved bs = bs) {k : Nat} (mem : .table k ∈ holdsIn bs) : moved.lookup k = none := by
  cases bs with
  | nil => simp [holdsIn] at mem
  | cons b bs =>
      rw [ValidIn] at valid
      rw [reparentIn, List.cons.injEq] at same
      rw [holdsIn] at mem
      rcases List.mem_append.mp mem with mem | mem
      · exact apart_of_reparent new b valid.1 same.1 mem
      · exact apart_of_reparentIn new bs valid.2 same.2 mem

end

section

variable (vectors : List (List Name))

mutual

theorem shown_reparent (b : Variable α) : (b.reparent moved).shown vectors = b.shown vectors := by
  cases b with
  | mk addr own d_attr d_attributes vars =>
      rw [reparent, shown, shown, shownIn_reparent vars]
      exact congrArg (Shown.mk own d_attr.d_name · d_attributes _) (Entry.shownIn_reparent vectors d_attr.attr_map)

theorem shownIn_reparent (bs : List (Variable α)) : shownIn vectors (reparentIn moved bs) = shownIn vectors bs := by
  cases bs with
  | nil => rw [reparentIn]
  | cons b bs => rw [reparentIn, shownIn, shownIn, shown_reparent b, shownIn_reparent bs]

end

theorem length_shownIn (bs : List (Variable α)) : (shownIn vectors bs).length = bs.length := by
  induction bs with
  | nil => rw [shownIn]; rfl
  | cons b bs ih => rw [shownIn, List.length_cons, ih, List.length_cons]

end

end Variable

end

/-! ## Copies -/

namespace DDS

variable {α : Type}

def holds (dds : DDS α) : List Ref := dds.d_attr.holds ++ Variable.holdsIn dds.vars

def aliased (dds : DDS α) : List Ref := dds.d_attr.aliased ++ Variable.aliasedIn dds.vars

/-- A DDS with a store. -/
structure Valid (dds : DDS α) (s : Store) : Prop where
  parent : ∀ p ∈ dds.d_attr.d_parent, p < s.next
  attributes : Entry.ValidIn s.vectors s.next dds.d_attr.attr_map
  vars : Variable.ValidIn s.vectors s.next dds.vars
  settled : s.moved = []

/-- The target is as the source, which is not changed. -/
def Faithful (dds : DDS α) (s : Store) (done : Option (DDS α × DDS α × Store)) : Prop :=
  ∃ target s', done = some (target, dds, s') ∧ s.vectors <+: s'.vectors ∧ target.toInfo = dds.toInfo ∧
    target.d_attr.d_name = dds.d_attr.d_name ∧
    Entry.shownIn s'.vectors target.d_attr.attr_map = Entry.shownIn s.vectors dds.d_attr.attr_map ∧
    Variable.shownIn s'.vectors target.vars = Variable.shownIn s.vectors dds.vars

/-- A DDS that can be copied without harm. -/
structure Copyable (dds : DDS α) : Prop where
  container : dds.d_container = none ∨ dds.vars = []
  attributes : Entry.TypedIn dds.d_attr.attr_map
  vars : Variable.TypedIn dds.vars
  apart : ∀ k, .table k ∈ dds.aliased → .table k ∉ dds.holds

section

variable {t t' dds dds' : DDS α} {s s' : Store}

/-- Without a container the loop copies the variables from one on. -/
theorem add_vars_eq (n i : Nat) (here : t.d_container = none) (rest : i + n = dds.vars.length) :
    add_vars n i t dds s = (Variable.copyIn (dds.vars.drop i) s).map fun r =>
      ({ t with vars := t.vars ++ r.1 }, dds, r.2) := by
  induction n generalizing i t s with
  | zero =>
      rw [add_vars, List.drop_eq_nil_of_le (by omega), Variable.copyIn, Option.map_some, List.append_nil]
  | succ n ih =>
      have within : i < dds.vars.length := by omega
      rw [add_vars, add_var, List.getElem?_eq_getElem within, List.drop_eq_getElem_cons within, Variable.copyIn]
      cases one : Variable.copy dds.vars[i] s with
      | none => simp [one]
      | some r =>
          obtain ⟨b, s₁⟩ := r
          have others := ih (t := { t with vars := t.vars ++ [b] }) (s := s₁) (i + 1) here (by omega)
          simp only [here] at others
          simp only [Option.bind_eq_bind, Option.bind_some, one, here, others]
          cases Variable.copyIn (dds.vars.drop (i + 1)) s₁ with
          | none => rfl
          | some r => simp

/-- With a container nothing is added to an empty target. -/
theorem add_vars_empty {c : Nat} (n i : Nat) (done : add_vars n i t dds s = some (t', dds', s'))
    (here : t.d_container = some c) (empty : t.vars = []) : t'.vars = [] := by
  induction n generalizing i t dds s with
  | zero =>
      rw [add_vars] at done
      obtain ⟨rfl, -⟩ := Prod.mk.inj (Option.some.inj done)
      exact empty
  | succ n ih =>
      rw [add_vars] at done
      obtain ⟨⟨t₁, dds₁, s₁⟩, one, done⟩ := Option.bind_eq_some_iff.mp done
      obtain ⟨bt, -, one⟩ := Option.bind_eq_some_iff.mp one
      obtain ⟨⟨btp, s₂⟩, -, one⟩ := Option.bind_eq_some_iff.mp one
      simp only [here] at one
      obtain ⟨⟨bt', s₃⟩, -, one⟩ := Option.bind_eq_some_iff.mp one
      obtain ⟨rfl, both⟩ := Prod.mk.inj (Option.some.inj one)
      obtain ⟨rfl, rfl⟩ := Prod.mk.inj both
      exact ih (i + 1) done rfl (by rw [empty, Variable.pushIn])

/-- The loop adds only to the target. -/
def Loose (dds : DDS α) : Prop := dds.d_container = none ∨ dds.vars = []

theorem duplicate_spec (valid : dds.Valid s) (loose : dds.Loose) (next : Nat) :
    ∃ es bs s', duplicate t dds { s with next } = some (DDS.reparent s'.moved ⟨dds.toInfo, t.addr, dds.d_container,
        ⟨⟨dds.d_attr.d_name, none, es⟩, t.d_attr.addr⟩, t.vars ++ bs⟩, dds.reparent s'.moved, { s' with moved := [] }) ∧
      Grew t.d_attr.addr dds.aliased { s with next } s' ∧
      (Entry.shownIn s'.vectors es = Entry.shownIn s.vectors dds.d_attr.attr_map ↔ Entry.TypedIn dds.d_attr.attr_map) ∧
      (Variable.shownIn s'.vectors bs = Variable.shownIn s.vectors dds.vars ↔ Variable.TypedIn dds.vars) := by
  obtain ⟨es, s₁, one, grew, same⟩ := Entry.copyIn_shown t.d_attr.addr dds.d_attr.attr_map (s := { s with next })
    valid.attributes
  obtain ⟨bs, s₂, others, grew', same'⟩ := Variable.copyIn_shown dds.vars (valid.vars.longer grew.vectors) t.d_attr.addr
  refine ⟨es, bs, s₂, ?_, grew.trans grew', same _ grew'.vectors, ?_⟩
  · rw [duplicate, one]
    have looped : add_vars dds.vars.length 0
        ⟨dds.toInfo, t.addr, dds.d_container, ⟨⟨dds.d_attr.d_name, none, es⟩, t.d_attr.addr⟩, t.vars⟩ dds s₁ =
        some (⟨dds.toInfo, t.addr, dds.d_container, ⟨⟨dds.d_attr.d_name, none, es⟩, t.d_attr.addr⟩, t.vars ++ bs⟩, dds, s₂) := by
      rcases loose with here | empty
      · rw [add_vars_eq (t := ⟨dds.toInfo, t.addr, dds.d_container, ⟨⟨dds.d_attr.d_name, none, es⟩, t.d_attr.addr⟩, t.vars⟩)
          dds.vars.length 0 here (Nat.zero_add _), List.drop_zero, others]
        rfl
      · rw [empty, Variable.copyIn] at others
        obtain ⟨rfl, rfl⟩ := Prod.mk.inj (Option.some.inj others)
        rw [empty, List.length_nil, add_vars, List.append_nil]
    simp only [Option.bind_eq_bind, Option.bind_some, looped]
  · rw [← same' _ List.prefix_rfl, Variable.shownIn_longer grew.vectors dds.vars valid.vars]

theorem reparent_self {moved : List (Nat × Nat)} (apart : ∀ k, .table k ∈ dds.holds → moved.lookup k = none) :
    dds.reparent moved = dds := by
  rw [reparent, AttrTable.reparent_self fun k mem => apart k (List.mem_append_left _ mem),
    Variable.reparentIn_self _ fun k mem => apart k (List.mem_append_right _ mem)]

theorem lookup_eq_none {moved : List (Nat × Nat)} {k : Nat} : moved.lookup k = none ↔ k ∉ moved.map Prod.fst := by
  rw [List.lookup_eq_none_iff, List.mem_map]
  constructor
  · rintro missed ⟨x, mem, rfl⟩
    simpa using missed x mem
  · intro missed x mem
    simp only [bne_iff_ne, ne_eq]
    exact fun same => missed ⟨x, mem, same.symm⟩

/-- Copying to a target adds to the variables that are there. -/
theorem duplicate_faithful (valid : dds.Valid s) (ok : dds.Copyable) (next : Nat) :
    Faithful dds s (duplicate t dds { s with next }) ↔ t.vars = [] := by
  obtain ⟨es, bs, s', done, grew, same, same'⟩ := duplicate_spec (t := t) valid ok.container next
  obtain ⟨m, moved, keys, -⟩ := grew.moved
  have still : dds.reparent s'.moved = dds := by
    apply reparent_self
    intro k mem
    rw [lookup_eq_none, moved, valid.settled, List.append_nil, keys]
    exact fun there => ok.apart k there mem
  have shown := same'.mpr ok.vars
  rw [done, still]
  constructor
  · rintro ⟨target, s₂, result, -, -, -, -, all⟩
    obtain ⟨rfl, both⟩ := Prod.mk.inj (Option.some.inj result)
    obtain ⟨-, rfl⟩ := Prod.mk.inj both
    simp only [reparent, Variable.shownIn_reparent] at all
    have lengths := congrArg List.length (all.trans shown.symm)
    rw [Variable.length_shownIn, Variable.length_shownIn, List.length_append] at lengths
    exact List.length_eq_zero_iff.mp (by omega)
  · intro empty
    refine ⟨_, _, rfl, grew.vectors, rfl, rfl, ?_, ?_⟩
    · exact (Entry.shownIn_reparent _ _).trans (same.mpr ok.attributes)
    · rw [empty]
      exact (Variable.shownIn_reparent _ _).trans shown

theorem copyable_of_faithful (valid : dds.Valid s) (faithful : Faithful dds s (copy dds s)) : dds.Copyable := by
  have loose : dds.Loose := by
    by_contra tight
    obtain ⟨held, some_⟩ := not_or.mp tight
    obtain ⟨c, here⟩ := Option.ne_none_iff_exists'.mp held
    obtain ⟨target, s', done, -, -, -, -, all⟩ := faithful
    obtain ⟨⟨es, s₁⟩, -, done⟩ := Option.bind_eq_some_iff.mp done
    obtain ⟨⟨t, dds', s₂⟩, looped, done⟩ := Option.bind_eq_some_iff.mp done
    obtain ⟨rfl, -⟩ := Prod.mk.inj (Option.some.inj done)
    have empty := add_vars_empty dds.vars.length 0 looped here rfl
    simp only [reparent, Variable.shownIn_reparent, empty] at all
    have lengths := congrArg List.length all
    rw [Variable.length_shownIn, Variable.length_shownIn] at lengths
    exact some_ (List.length_eq_zero_iff.mp lengths.symm)
  obtain ⟨es, bs, s', done, grew, same, same'⟩ := duplicate_spec
    (t := ⟨dds.toInfo, s.next, none, ⟨⟨[], none, []⟩, s.next + 1⟩, []⟩) valid loose (s.next + 2)
  obtain ⟨m, moved, keys, parents⟩ := grew.moved
  obtain ⟨target, s₂, result, -, -, -, attributes, vars⟩ := faithful
  rw [copy, done] at result
  obtain ⟨rfl, both⟩ := Prod.mk.inj (Option.some.inj result)
  obtain ⟨still, rfl⟩ := Prod.mk.inj both
  simp only [reparent, AttrTable.reparent, Variable.shownIn_reparent, Entry.shownIn_reparent, List.nil_append] at attributes vars
  refine ⟨loose, same.mp attributes, same'.mp vars, ?_⟩
  intro k there mem
  have new : ∀ x ∈ s'.moved, s.next ≤ x.2 := by
    intro x mem
    rw [moved, valid.settled, List.append_nil] at mem
    rcases parents x mem with rest | rest
    · rw [rest]
      exact Nat.le_succ _
    · exact (Nat.le_add_right _ 2).trans rest
  have missed : s'.moved.lookup k = none := by
    rcases List.mem_append.mp mem with mem | mem
    · exact AttrTable.apart_of_reparent new valid.parent valid.attributes (congrArg DDS.d_attr still) mem
    · exact Variable.apart_of_reparentIn new dds.vars valid.vars (congrArg DDS.vars still) mem
  rw [lookup_eq_none, moved, valid.settled, List.append_nil, keys] at missed
  exact missed there

end

/-- A DDS with a Structure that can be its current container, and with an attribute. -/
private def sst (d_container : Option Nat) : DDS Name :=
  ⟨⟨none, "sst".toList, "sst.nc".toList, [], 2, 0, "2.0".toList, [], [], 0, 0⟩, 0, d_container,
    ⟨⟨[], none, [.attr ['a'] .byte none (some 0)]⟩, 1⟩, [.mk 2 ['c'] ⟨⟨[], none, []⟩, 3⟩ none []]⟩

private theorem sst_valid (d_container : Option Nat) : (sst d_container).Valid ⟨[["1".toList]], 4, []⟩ where
  parent := nofun
  attributes := by
    simp only [sst, Entry.ValidIn, Entry.Valid]
    decide
  vars := by
    simp [sst, Variable.ValidIn, Variable.Valid, Entry.ValidIn]
  settled := rfl

end DDS

end Libdap.Dap2
