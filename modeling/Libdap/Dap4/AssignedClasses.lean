import Libdap.Dap4.Assignment

/-! # What the assignment operators replace

Of seven classes. An assignment adds to a list that the left object has, and it leaves
the dimensions and the enumerations of a group alone when the right group has none.
-/

namespace Libdap.Dap4.Assigned

open Dap2 (Store Entry Variable Parts)

variable {α ε κ : Type}

/-! ## Lists -/

def D4Dimensions.m_duplicate (d_dims rhs : List D4Dimension) : List D4Dimension := d_dims ++ rhs

def D4Maps.m_duplicate (d_maps maps : List D4Map) : List D4Map := d_maps ++ maps

/-! ## Sequences -/

abbrev Row (α : Type) := List (Variable α)

def rowParts (α : Type) : Parts (Row α) (List (Variable.Shown α)) := (Parts.ofVariable α).list

/-- Each variable of the row is duplicated. -/
def copyRow (row : Row α) : Store → Option (Row α × Store) := Parts.copyIn Variable.copy row

def D4FilterClauseList.m_duplicate (d_clauses src : List κ) : List κ := d_clauses ++ src

/-- The fields of a `D4Sequence` beside its values. -/
structure D4Sequence.Fields (κ : Type) where
  d_length : Int
  d_clauses : Option (List κ)
  d_copy_clauses : Bool

abbrev D4Sequence (α κ : Type) := Owner α (D4Sequence.Fields κ) (Row α)

namespace D4Sequence

def m_duplicate (_ s : Fields κ) : Fields κ where
  d_length := s.d_length
  d_copy_clauses := s.d_copy_clauses
  d_clauses := s.d_clauses.map (D4FilterClauseList.m_duplicate [])

def parts (α κ : Type) : Parts (D4Sequence α κ) ((Variable.Shown α × List (List (Variable.Shown α))) × Fields κ) :=
  Owner.parts (rowParts α) id

def assign : D4Sequence α κ → D4Sequence α κ → Store → Option (D4Sequence α κ × D4Sequence α κ × Store) :=
  Owner.assign (rowParts α) copyRow m_duplicate

end D4Sequence

/-- The fields of a `Sequence` beside its values. -/
structure Sequence.Fields where
  d_row_number : Int
  d_starting_row_number : Int
  d_ending_row_number : Int
  d_row_stride : Int
  d_leaf_sequence : Bool
  d_unsent_data : Bool
  d_wrote_soi : Bool
  d_top_most : Bool

abbrev Sequence (α : Type) := Owner α Sequence.Fields (Row α)

namespace Sequence

def m_duplicate (_ s : Fields) : Fields := { s with }

def parts (α : Type) : Parts (Sequence α) ((Variable.Shown α × List (List (Variable.Shown α))) × Fields) :=
  Owner.parts (rowParts α) id

def assign : Sequence α → Sequence α → Store → Option (Sequence α × Sequence α × Store) :=
  Owner.assign (rowParts α) copyRow m_duplicate

end Sequence

/-! ## Groups -/

namespace D4Group

/-- The dimensions and the enumerations, each of which is null until it is used. -/
structure Fields (ε : Type) where
  d_dims : Option (List D4Dimension)
  d_enum_defs : Option (List ε)

/-- What `dims` and `enum_defs` return. -/
def showFields (f : Fields ε) : List D4Dimension × List ε := (f.d_dims.getD [], f.d_enum_defs.getD [])

end D4Group

inductive D4Group (α ε : Type) where
  | mk (base : Variable α) (fields : D4Group.Fields ε) (d_groups : List (D4Group α ε))

def D4EnumDefs.m_duplicate (d_enums rhs : List ε) : List ε := d_enums ++ rhs

namespace D4Group

/-- A group with its content. -/
inductive Shown (α ε : Type) where
  | mk (base : Variable.Shown α) (fields : List D4Dimension × List ε) (d_groups : List (Shown α ε))

/-- The part of `m_duplicate` before its loop. -/
def m_duplicate (this g : Fields ε) : Fields ε where
  d_dims := match g.d_dims with
    | some d_dims => some (D4Dimensions.m_duplicate [] d_dims)
    | none => this.d_dims
  d_enum_defs := match g.d_enum_defs with
    | some d_enum_defs => some (D4EnumDefs.m_duplicate [] d_enum_defs)
    | none => this.d_enum_defs

mutual

/-- `ptr_duplicate`. -/
def copy : D4Group α ε → Store → Option (D4Group α ε × Store)
  | .mk base fields d_groups, s => do
    let (base, s) ← base.copy s
    let (d_groups, s) ← copyIn d_groups s
    some (.mk base (m_duplicate ⟨none, none⟩ fields) d_groups, s)

def copyIn : List (D4Group α ε) → Store → Option (List (D4Group α ε) × Store)
  | [], s => some ([], s)
  | g :: gs, s => do
    let (g, s) ← copy g s
    let (gs, s) ← copyIn gs s
    some (g :: gs, s)

end

section

variable {β : Type} (f : Variable α → Fields ε → List β → β)

mutual

def fold : D4Group α ε → β
  | .mk base fields d_groups => f base fields (foldIn d_groups)

def foldIn : List (D4Group α ε) → List β
  | [] => []
  | g :: gs => fold g :: foldIn gs

end

theorem foldIn_eq (gs : List (D4Group α ε)) : foldIn f gs = gs.map (fold f) := by
  induction gs with
  | nil => rw [foldIn, List.map_nil]
  | cons g gs ih => rw [foldIn, ih, List.map_cons]

end

def inner (α ε : Type) : Parts (D4Group α ε) (Shown α ε) where
  aliased := fold fun base _ inside => base.aliased ++ inside.flatten
  holds := fold fun base _ inside => base.holds ++ inside.flatten
  reparent moved := fold fun base fields inside => .mk (base.reparent moved) fields inside
  shown vectors := fold fun base fields inside => .mk (base.shown vectors) (showFields fields) inside
  Valid vectors next := fold fun base _ inside => base.Valid vectors next ∧ ∀ valid ∈ inside, valid
  Typed := fold fun base _ inside => base.Typed ∧ ∀ typed ∈ inside, typed

/-- A group that is on a side of an assignment, with the same fields. -/
abbrev Side (α ε : Type) := Owner α (Fields ε) (D4Group α ε)

def parts (α ε : Type) : Parts (Side α ε) ((Variable.Shown α × List (Shown α ε)) × (List D4Dimension × List ε)) :=
  Owner.parts (inner α ε) showFields

def assign : Side α ε → Side α ε → Store → Option (Side α ε × Side α ε × Store) :=
  Owner.assign (inner α ε) copy m_duplicate

theorem m_duplicate_new (fields : Fields ε) : m_duplicate ⟨none, none⟩ fields = fields := by
  obtain ⟨d_dims, d_enum_defs⟩ := fields
  cases d_dims <;> cases d_enum_defs <;> rfl

theorem copyIn_eq (gs : List (D4Group α ε)) : copyIn gs = Parts.copyIn copy gs := by
  induction gs with
  | nil => rfl
  | cons g gs ih =>
      funext s
      rw [copyIn, ih, Parts.copyIn]

theorem copy_eq (base : Variable α) (fields : Fields ε) (d_groups : List (D4Group α ε)) :
    copy (.mk base fields d_groups) =
      fun s => (Parts.inTurn base.copy (Parts.copyIn copy d_groups) s).map fun r => (.mk r.1.1 fields r.1.2, r.2) := by
  funext s
  rw [copy, copyIn_eq, m_duplicate_new, Parts.inTurn]
  cases base.copy s with
  | none => rfl
  | some r =>
      simp only [Option.bind_eq_bind, Option.bind_some]
      cases Parts.copyIn copy d_groups r.2 <;> rfl

/-- The parts of a group are those of its variables and of its groups. -/
theorem made (base : Variable α) (fields : Fields ε) (d_groups : List (D4Group α ε)) :
    Parts.Made (inner α ε) ((Parts.ofVariable α).both (inner α ε).list) (fun z => .mk z.1 fields z.2)
      (fun v => .mk v.1 (showFields fields) v.2) (base, d_groups) where
  aliased := by
    simp only [inner, Parts.both, Parts.list, Parts.ofVariable, fold, foldIn_eq, List.flatMap_def]
  holds := by
    simp only [inner, Parts.both, Parts.list, Parts.ofVariable, fold, foldIn_eq, List.flatMap_def]
  reparent moved := by
    simp only [inner, Parts.both, Parts.list, Parts.ofVariable, fold, foldIn_eq]
  shown vectors y := by
    simp only [inner, Parts.both, Parts.list, Parts.ofVariable, fold, foldIn_eq]
  injective v w := by
    rw [Shown.mk.injEq]
    exact ⟨fun all => Prod.ext all.1 all.2.2, fun same => same ▸ ⟨rfl, rfl, rfl⟩⟩
  Valid vectors next := by
    simp only [inner, Parts.both, Parts.list, Parts.ofVariable, fold, foldIn_eq, List.forall_mem_map]
  Typed := by
    simp only [inner, Parts.both, Parts.list, Parts.ofVariable, fold, foldIn_eq, List.forall_mem_map]

mutual

theorem lawful (g : D4Group α ε) : (inner α ε).Lawful g := by
  cases g with
  | mk base fields d_groups =>
      exact ((Parts.ofVariable_lawful base).both (.list (lawfulIn d_groups))).made (made base fields d_groups)

theorem lawfulIn (gs : List (D4Group α ε)) : ∀ g ∈ gs, (inner α ε).Lawful g := by
  cases gs with
  | nil => exact List.forall_mem_nil _
  | cons g gs => exact List.forall_mem_cons.mpr ⟨lawful g, lawfulIn gs⟩

end

theorem variable_copies (parent : Nat) (b : Variable α) : (Parts.ofVariable α).Copies b parent b.copy :=
  fun _ _ valid => Variable.copy_shown b valid parent

mutual

theorem copies (parent : Nat) (g : D4Group α ε) : (inner α ε).Copies g parent g.copy := by
  cases g with
  | mk base fields d_groups =>
      rw [copy_eq]
      refine Parts.Copies.made ?_ (made base fields d_groups)
      exact .both (.list (lawfulIn d_groups)) (variable_copies parent base)
        (.list (lawfulIn d_groups) (copiesIn parent d_groups))

theorem copiesIn (parent : Nat) (gs : List (D4Group α ε)) : ∀ g ∈ gs, (inner α ε).Copies g parent g.copy := by
  cases gs with
  | nil => exact List.forall_mem_nil _
  | cons g gs => exact List.forall_mem_cons.mpr ⟨copies parent g, copiesIn parent gs⟩

end

/-- What is left of the dimensions and enumerations of the left group. -/
theorem showFields_m_duplicate (this g : Fields ε) : showFields (m_duplicate this g) = showFields g ↔
    (g.d_dims = none → this.d_dims.getD [] = []) ∧ (g.d_enum_defs = none → this.d_enum_defs.getD [] = []) := by
  obtain ⟨d_dims, d_enum_defs⟩ := g
  cases d_dims <;> cases d_enum_defs <;>
    simp [showFields, m_duplicate, D4Dimensions.m_duplicate, D4EnumDefs.m_duplicate]

end D4Group

/-! ## All classes -/

theorem row_lawful (row : Row α) : (rowParts α).Lawful row := .list fun b _ => Parts.ofVariable_lawful b

theorem row_copies (parent : Nat) (row : Row α) : (rowParts α).Copies row parent (copyRow row) :=
  .list (fun b _ => Parts.ofVariable_lawful b) fun b _ => D4Group.variable_copies parent b

theorem D4Sequence.m_duplicate_eq (this s : D4Sequence.Fields κ) : D4Sequence.m_duplicate this s = s := by
  obtain ⟨d_length, d_clauses, d_copy_clauses⟩ := s
  cases d_clauses <;> rfl

/-- What is added to a list replaces it when it was empty. -/
theorem replaces_append {σ : Type} {copy : List σ → List σ} (same : ∀ src, copy src = src) (ops : Operands (List σ)) :
    ops.Replaces (ops.assign fun d src => d ++ copy src) ↔ ops.Meet fun d _ => d = [] := by
  rw [Operands.replaces_assign]
  cases ops with
  | itself d => exact Iff.rfl
  | two d src =>
      change d ++ copy src = src ↔ d = []
      rw [same, List.append_left_eq_self]

/-- When each assignment makes the left object what the right one is: for lists and rows, when there were none. -/
theorem assignment_replaces_iff (s : Store) :
    (∀ ops : Operands D4Attribute, ops.Replaces (ops.assign D4Attribute.m_duplicate)) ∧
    (∀ ops : Operands (List D4Attribute), ops.Replaces (ops.assign D4Attributes.m_duplicate) ↔ ops.Meet fun a _ => a = []) ∧
    (∀ ops : Operands (List D4Dimension), ops.Replaces (ops.assign D4Dimensions.m_duplicate) ↔ ops.Meet fun a _ => a = []) ∧
    (∀ ops : Operands (List D4Map), ops.Replaces (ops.assign D4Maps.m_duplicate) ↔ ops.Meet fun a _ => a = []) ∧
    (∀ ops : Operands (D4Group.Side α ε), (D4Group.parts α ε).Valid s.vectors s.next ops.rhs →
      (ops.ReplacesIn (D4Group.parts α ε) s (ops.assignIn D4Group.assign s) ↔
        ops.Meet fun a b => Owner.Copyable (D4Group.inner α ε) a b ∧ a.owned = [] ∧
          (b.fields.d_dims = none → a.fields.d_dims.getD [] = []) ∧
          (b.fields.d_enum_defs = none → a.fields.d_enum_defs.getD [] = []))) ∧
    (∀ ops : Operands (D4Sequence α κ), (D4Sequence.parts α κ).Valid s.vectors s.next ops.rhs →
      (ops.ReplacesIn (D4Sequence.parts α κ) s (ops.assignIn D4Sequence.assign s) ↔
        ops.Meet fun a b => Owner.Copyable (rowParts α) a b ∧ a.owned = [])) ∧
    ∀ ops : Operands (Sequence α), (Sequence.parts α).Valid s.vectors s.next ops.rhs →
      (ops.ReplacesIn (Sequence.parts α) s (ops.assignIn Sequence.assign s) ↔
        ops.Meet fun a b => Owner.Copyable (rowParts α) a b ∧ a.owned = []) := by
  refine ⟨?_, ?_, ?_, ?_, ?_, ?_, ?_⟩
  · intro ops
    rw [Operands.replaces_assign]
    cases ops with
    | itself a => exact trivial
    | two a b => exact D4Attribute.copy_eq b
  · exact replaces_append D4Attributes.copy_eq
  · exact replaces_append fun _ => rfl
  · exact replaces_append fun _ => rfl
  · intro ops valid
    rw [D4Group.assign, D4Group.parts, Owner.replaces_iff D4Group.lawful D4Group.copies ops valid]
    simp only [D4Group.showFields_m_duplicate]
  · intro ops valid
    rw [D4Sequence.assign, D4Sequence.parts, Owner.replaces_iff row_lawful row_copies ops valid]
    simp only [D4Sequence.m_duplicate_eq, id_eq, and_true]
  · intro ops valid
    rw [Sequence.assign, Sequence.parts, Owner.replaces_iff row_lawful row_copies ops valid]
    simp only [Sequence.m_duplicate, id_eq, and_true]

/-- A group with a group in it, which has a dimension. -/
private def nested (name : Name) : D4Group.Side Name Unit :=
  let variable_ (addr : Nat) (name : Name) : Variable Name := .mk addr name ⟨⟨[], none, []⟩, addr + 1⟩ none []
  ⟨variable_ 0 name, ⟨none, none⟩, [.mk (variable_ 2 ['g']) ⟨some [.declared ['x'] 4], none⟩ []]⟩

private theorem nested_valid (name : Name) :
    (D4Group.parts Name Unit).Valid (Store.mk [] 4 []).vectors (Store.mk [] 4 []).next (nested name) := by
  simp [nested, D4Group.parts, Owner.parts, D4Group.inner, D4Group.fold, D4Group.foldIn, Parts.list, Variable.Valid,
    Entry.ValidIn, Variable.ValidIn]

/-- Of two groups that both have a group the left one gets two, -/
theorem nested_not_replaced : ¬(Operands.two (nested ['a']) (nested ['b'])).ReplacesIn (D4Group.parts Name Unit) ⟨[], 4, []⟩
    ((Operands.two (nested ['a']) (nested ['b'])).assignIn D4Group.assign ⟨[], 4, []⟩) := by
  intro replaces
  have same := (Owner.replaces_iff D4Group.lawful D4Group.copies (.two (nested ['a']) (nested ['b']))
    (nested_valid ['b'])).mp replaces
  cases same.2.1

/-- and a new group becomes what the right one is. -/
theorem nested_replaced : (Operands.two ⟨(nested ['a']).base, ⟨none, none⟩, []⟩ (nested ['b'])).ReplacesIn
    (D4Group.parts Name Unit) ⟨[], 4, []⟩
    ((Operands.two ⟨(nested ['a']).base, ⟨none, none⟩, []⟩ (nested ['b'])).assignIn D4Group.assign ⟨[], 4, []⟩) := by
  refine ((assignment_replaces_iff (κ := Unit) ⟨[], 4, []⟩).2.2.2.2.1 _ (nested_valid ['b'])).mpr ⟨⟨?_, ?_⟩, rfl, ?_⟩
  · simp [nested, attrTable, Entry.holdsIn]
  · simp [nested, D4Group.inner, Owner.parts, D4Group.fold, D4Group.foldIn, Parts.list, Variable.Typed,
      Entry.TypedIn, Variable.TypedIn]
  · exact ⟨fun _ => rfl, fun _ => rfl⟩

end Libdap.Dap4.Assigned
