import Libdap.Dap2.Parts
import Libdap.Dap4.Dataset

/-! # Assignment

Each class duplicates the right object into the left one with the function that its copy
constructor has. Pointers to what belongs to others, such as parents, are left out. The two
objects are one and the same, or neither is part of the other.
-/

namespace Libdap.Dap4

open Dap2 (Store Ref Entry AttrTable Variable Grew Parts)

/-- The two sides of an assignment. -/
inductive Operands (σ : Type) where
  | itself (a : σ)
  | two (a b : σ)

namespace Operands

variable {σ : Type}

def rhs : Operands σ → σ
  | itself a => a
  | two _ b => b

/-- There is nothing to do for one object. -/
def Meet (p : σ → σ → Prop) : Operands σ → Prop
  | itself _ => True
  | two a b => p a b

/-- `operator=` when no storage is shared, with both sides afterwards. -/
def assign (m_duplicate : σ → σ → σ) : Operands σ → σ × σ
  | itself a => (a, a)
  | two a b => (m_duplicate a b, b)

/-- `operator=` when there are attribute tables. -/
def assignIn (different : σ → σ → Store → Option (σ × σ × Store)) : Operands σ → Store → Option (σ × σ × Store)
  | itself a, s => some (a, a, s)
  | two a b, s => different a b s

/-- Both sides are as the right one was. -/
def Replaces (ops : Operands σ) (done : σ × σ) : Prop := done = (ops.rhs, ops.rhs)

theorem replaces_assign {m_duplicate : σ → σ → σ} (ops : Operands σ) :
    ops.Replaces (ops.assign m_duplicate) ↔ ops.Meet fun a b => m_duplicate a b = b := by
  cases ops with
  | itself a => exact iff_of_true rfl trivial
  | two a b => exact ⟨congrArg Prod.fst, fun same => congrArg (·, b) same⟩

end Operands

/-! ## Classes without attribute tables -/

mutual

/-- `D4Attribute(const D4Attribute &)`. -/
def D4Attribute.copy : D4Attribute → D4Attribute
  | .mk name type attributes values => .mk name type (D4Attributes.copy attributes) values

/-- The loop of `D4Attributes::m_duplicate`, which is all of its copy constructor. -/
def D4Attributes.copy : List D4Attribute → List D4Attribute
  | [] => []
  | a :: as => a.copy :: D4Attributes.copy as

end

/-- The attributes that were there are not used any more. -/
def D4Attribute.m_duplicate (_ src : D4Attribute) : D4Attribute := src.copy

def D4Attributes.m_duplicate (d_attrs src : List D4Attribute) : List D4Attribute := d_attrs ++ D4Attributes.copy src

mutual

theorem D4Attribute.copy_eq (a : D4Attribute) : a.copy = a := by
  cases a with
  | mk name type attributes values => rw [D4Attribute.copy, D4Attributes.copy_eq attributes]

theorem D4Attributes.copy_eq (as : List D4Attribute) : D4Attributes.copy as = as := by
  cases as with
  | nil => rw [D4Attributes.copy]
  | cons a as => rw [D4Attributes.copy, D4Attribute.copy_eq a, D4Attributes.copy_eq as]

end

/-! ## Constructors -/

/-- An object of a class derived from `Constructor`: what it is as one, the fields of its class, and the
    rows or groups that it owns. -/
structure Owner (α φ ρ : Type) where
  base : Variable α
  fields : φ
  owned : List ρ

section

variable {α φ θ ρ W : Type}

/-- The attribute table of a variable. -/
def attrTable : Variable α → AttrTable
  | .mk _ _ d_attr _ _ => d_attr

/-- `Constructor::operator=`. The old attributes go away first, so that nothing is left of what aliases in the
    right object stand for when that is theirs. -/
def Constructor.assign (aliased : List Ref) : Variable α → Variable α → Store → Option (Variable α × Store)
  | .mk addr _ d_attr _ _, .mk _ own d_attr' d_attributes vars, s =>
    if ∃ r ∈ Entry.holdsIn d_attr.attr_map, r ∈ aliased then none
    else do
      let (es, s) ← Entry.copyIn d_attr.addr d_attr'.attr_map s
      let (vars, s) ← Variable.copyIn vars s
      some (.mk addr own ⟨⟨d_attr'.d_name, none, es⟩, d_attr.addr⟩ (d_attributes.map D4Attributes.copy) vars, s)

namespace Owner

/-- The parts of an owner. Its fields show `θ`. -/
def parts (p : Parts ρ W) (showFields : φ → θ) : Parts (Owner α φ ρ) ((Variable.Shown α × List W) × θ) where
  aliased o := o.base.aliased ++ p.list.aliased o.owned
  holds o := o.base.holds ++ p.list.holds o.owned
  reparent moved o := ⟨o.base.reparent moved, o.fields, p.list.reparent moved o.owned⟩
  shown vectors o := ((o.base.shown vectors, p.list.shown vectors o.owned), showFields o.fields)
  Valid vectors next o := o.base.Valid vectors next ∧ p.list.Valid vectors next o.owned
  Typed o := o.base.Typed ∧ p.list.Typed o.owned

/-- `operator=` of a class: that of `Constructor`, then the fields, then the loop over what is owned, which adds to
    what is there. -/
def assign (p : Parts ρ W) (copy : ρ → Store → Option (ρ × Store)) (fields : φ → φ → φ) (a b : Owner α φ ρ)
    (s : Store) : Option (Owner α φ ρ × Owner α φ ρ × Store) := do
  let whole := parts p fun _ : φ => ()
  let ((base, owned), s) ← Parts.inTurn (Constructor.assign (whole.aliased b) a.base b.base) (Parts.copyIn copy b.owned) { s with moved := [] }
  some (whole.reparent s.moved ⟨base, fields a.fields b.fields, a.owned ++ owned⟩, whole.reparent s.moved b,
    { s with moved := [] })

end Owner

/-- The left object shows what the right one does. So does the right one, which is the same as before unless it has
    an alias of a table of its own. -/
def Operands.ReplacesIn {σ V : Type} (p : Parts σ V) (ops : Operands σ) (s : Store) (done : Option (σ × σ × Store)) : Prop :=
  ∃ a b s', done = some (a, b, s') ∧ s.vectors <+: s'.vectors ∧ p.shown s'.vectors a = p.shown s.vectors ops.rhs ∧
    p.shown s'.vectors b = p.shown s.vectors ops.rhs ∧ (p.Apart ops.rhs → b = ops.rhs)

/-- When the right object is copied whole, but for what the left one already owned. -/
structure Owner.Copyable (p : Parts ρ W) (a b : Owner α φ ρ) : Prop where
  kept : ∀ r ∈ Entry.holdsIn (attrTable a.base).attr_map, r ∉ (parts p fun _ : φ => ()).aliased b
  typed : (parts p fun _ : φ => ()).Typed b

theorem Constructor.assign_copies {aliased : List Ref} {a : Variable α}
    (kept : ¬∃ r ∈ Entry.holdsIn (attrTable a).attr_map, r ∈ aliased) (b : Variable α) :
    (Parts.ofVariable α).Copies b (attrTable a).addr (assign aliased a b) := by
  intro s next valid
  cases a with
  | mk addr _ d_attr _ _ =>
    cases b with
    | mk addr' own d_attr' d_attributes vars =>
      have kept : ¬∃ r ∈ Entry.holdsIn d_attr.attr_map, r ∈ aliased := kept
      have valid : Variable.Valid s.vectors next (.mk addr' own d_attr' d_attributes vars) := valid
      rw [Variable.Valid] at valid
      obtain ⟨es, s₁, one, grew, same⟩ := Entry.copyIn_shown d_attr.addr d_attr'.attr_map valid.2.1
      obtain ⟨vars', s₂, others, grew', same'⟩ := Variable.copyIn_shown vars (valid.2.2.longer grew.vectors) d_attr.addr
      refine ⟨.mk addr own ⟨⟨d_attr'.d_name, none, es⟩, d_attr.addr⟩ d_attributes vars', s₂, ?_, grew.trans grew', ?_⟩
      · have attributes : d_attributes.map D4Attributes.copy = d_attributes := by
          rw [funext D4Attributes.copy_eq]
          exact Option.map_id'
        rw [assign, if_neg kept, one, Option.bind_eq_bind, Option.bind_some]
        simp only [others, attributes, Option.bind_eq_bind, Option.bind_some]
      · intro vectors longer
        simp only [Parts.ofVariable, Variable.shown, Variable.Typed, Variable.Shown.mk.injEq, true_and]
        rw [← same vectors (grew'.vectors.trans longer), ← same' vectors longer,
          Variable.shownIn_longer grew.vectors vars valid.2.2]

theorem length_copyIn {copy : ρ → Store → Option (ρ × Store)} {xs xs' : List ρ} {s s₁ : Store}
    (done : Parts.copyIn copy xs s = some (xs', s₁)) : xs'.length = xs.length := by
  induction xs generalizing xs' s s₁ with
  | nil =>
      obtain ⟨rfl, -⟩ := Prod.mk.inj (Option.some.inj done)
      rfl
  | cons x xs ih =>
      rw [Parts.copyIn] at done
      obtain ⟨⟨x', t⟩, -, done⟩ := Option.bind_eq_some_iff.mp done
      obtain ⟨⟨rest, t'⟩, others, done⟩ := Option.bind_eq_some_iff.mp done
      obtain ⟨rfl, -⟩ := Prod.mk.inj (Option.some.inj done)
      rw [List.length_cons, ih others, List.length_cons]

theorem Constructor.assign_freed {aliased : List Ref} {a b : Variable α} {s : Store}
    (freed : ∃ r ∈ Entry.holdsIn (attrTable a).attr_map, r ∈ aliased) : assign aliased a b s = none := by
  cases a
  cases b
  exact if_pos freed

namespace Owner

variable {p : Parts ρ W} {copy : ρ → Store → Option (ρ × Store)} {showFields : φ → θ}

/-- The parts of an owner are those of its base and of its list. -/
theorem made (x : Owner α φ ρ) : Parts.Made (parts p showFields) ((Parts.ofVariable α).both p.list)
    (fun z => ⟨z.1, x.fields, z.2⟩) (fun v => (v, showFields x.fields)) (x.base, x.owned) where
  aliased := rfl
  holds := rfl
  reparent _ := rfl
  shown _ _ := rfl
  injective v w := by rw [Prod.mk.injEq, and_iff_left rfl]
  Valid _ _ := Iff.rfl
  Typed := Iff.rfl

theorem parts_lawful (lawful : ∀ x, p.Lawful x) (x : Owner α φ ρ) : (parts p showFields).Lawful x :=
  ((Parts.ofVariable_lawful x.base).both (.list fun y _ => lawful y)).made (made x)

theorem length_owned {f : Store → Option (Variable α × Store)} {xs owned : List ρ} {base : Variable α} {s s' : Store}
    (done : Parts.inTurn f (Parts.copyIn copy xs) s = some ((base, owned), s')) : owned.length = xs.length := by
  rw [Parts.inTurn] at done
  obtain ⟨⟨x, s₁⟩, -, done⟩ := Option.bind_eq_some_iff.mp done
  obtain ⟨⟨ys, s₂⟩, others, done⟩ := Option.bind_eq_some_iff.mp done
  obtain ⟨both, -⟩ := Prod.mk.inj (Option.some.inj done)
  obtain ⟨-, rfl⟩ := Prod.mk.inj both
  exact length_copyIn others

theorem copied {a b : Owner α φ ρ} {aliased : List Ref} (lawful : ∀ x, p.Lawful x)
    (copies : ∀ parent x, p.Copies x parent (copy x))
    (kept : ¬∃ r ∈ Entry.holdsIn (attrTable a.base).attr_map, r ∈ aliased) :
    ((Parts.ofVariable α).both p.list).Copies (b.base, b.owned) (attrTable a.base).addr
      (Parts.inTurn (Constructor.assign aliased a.base b.base) (Parts.copyIn copy b.owned)) :=
  Parts.Copies.both (.list fun y _ => lawful y) (Constructor.assign_copies kept b.base)
    (.list (fun y _ => lawful y) fun y _ => copies _ y)

/-- What is owned is shown as it is in the right object, after what was owned before. -/
theorem shown_append_iff {old new owned : List ρ} {vectors vectors' : List (List Name)} (lengths : new.length = owned.length) :
    p.list.shown vectors' (old ++ new) = p.list.shown vectors owned ↔
      old = [] ∧ p.list.shown vectors' new = p.list.shown vectors owned := by
  constructor
  · intro same
    have total := congrArg List.length same
    simp only [Parts.list, List.length_map, List.length_append] at total
    obtain rfl := List.length_eq_zero_iff.mp (by omega : old.length = 0)
    exact ⟨rfl, same⟩
  · rintro ⟨rfl, same⟩
    exact same

theorem assign_replaces {fields : φ → φ → φ} {a b : Owner α φ ρ} {s : Store} (lawful : ∀ x, p.Lawful x)
    (copies : ∀ parent x, p.Copies x parent (copy x)) (valid : (parts p showFields).Valid s.vectors s.next b) :
    (Operands.two a b).ReplacesIn (parts p showFields) s (assign p copy fields a b s) ↔
      Copyable p a b ∧ a.owned = [] ∧ showFields (fields a.fields b.fields) = showFields b.fields := by
  by_cases freed : ∃ r ∈ Entry.holdsIn (attrTable a.base).attr_map, r ∈ (parts p fun _ : φ => ()).aliased b
  · constructor
    · rintro ⟨a', b', s', done, -⟩
      rw [Owner.assign, Parts.inTurn, Constructor.assign_freed freed] at done
      cases done
    · intro conditions
      obtain ⟨r, mem, there⟩ := freed
      exact absurd there (conditions.1.kept r mem)
  · obtain ⟨⟨base, owned⟩, s', done, grew, same⟩ := copied lawful copies freed { s with moved := [] } s.next valid
    have shows := (same s'.vectors List.prefix_rfl).trans (Iff.rfl : _ ↔ (parts p fun _ : φ => ()).Typed b)
    rw [Parts.both, Prod.mk.injEq] at shows
    have lengths : owned.length = b.owned.length := length_owned done
    have result : assign p copy fields a b s = some ((parts p fun _ : φ => ()).reparent s'.moved
        ⟨base, fields a.fields b.fields, a.owned ++ owned⟩, (parts p fun _ : φ => ()).reparent s'.moved b,
        { s' with moved := [] }) := by
      rw [Owner.assign, done]
      rfl
    have left : (parts p showFields).shown s'.vectors ((parts p showFields).reparent s'.moved
        ⟨base, fields a.fields b.fields, a.owned ++ owned⟩) = (parts p showFields).shown s.vectors b ↔
        (parts p fun _ : φ => ()).Typed b ∧ a.owned = [] ∧ showFields (fields a.fields b.fields) = showFields b.fields := by
      rw [(parts_lawful lawful _).shown_reparent, parts]
      simp only [Prod.mk.injEq]
      rw [shown_append_iff lengths, ← shows]
      tauto
    rw [result]
    constructor
    · rintro ⟨a', b', s₂, only, -, shown, -⟩
      obtain ⟨rfl, rest⟩ := Prod.mk.inj (Option.some.inj only)
      obtain ⟨-, rfl⟩ := Prod.mk.inj rest
      obtain ⟨typed, rest⟩ := left.mp shown
      exact ⟨⟨fun r mem there => freed ⟨r, mem, there⟩, typed⟩, rest⟩
    · rintro ⟨conditions, rest⟩
      refine ⟨_, _, _, rfl, grew.vectors, left.mpr ⟨conditions.typed, rest⟩, ?_, ?_⟩
      · exact ((parts_lawful lawful b).shown_reparent _ _).trans ((parts_lawful lawful b).shown_longer valid grew.vectors)
      · intro apart
        obtain ⟨m, moved, keys, -⟩ := grew.moved
        have owner : (parts p showFields).Lawful b := parts_lawful lawful b
        apply owner.reparent_self
        intro k mem
        rw [Dap2.DDS.lookup_eq_none, moved, List.append_nil, keys]
        exact fun there => apart k there mem

/-- An assignment replaces what is not in a list, and adds to a list. -/
theorem replaces_iff {fields : φ → φ → φ} (lawful : ∀ x, p.Lawful x) (copies : ∀ parent x, p.Copies x parent (copy x))
    (ops : Operands (Owner α φ ρ)) {s : Store} (valid : (parts p showFields).Valid s.vectors s.next ops.rhs) :
    ops.ReplacesIn (parts p showFields) s (ops.assignIn (assign p copy fields) s) ↔
      ops.Meet fun a b => Copyable p a b ∧ a.owned = [] ∧ showFields (fields a.fields b.fields) = showFields b.fields := by
  cases ops with
  | itself a => exact iff_of_true ⟨a, a, s, rfl, List.prefix_rfl, rfl, rfl, fun _ => rfl⟩ trivial
  | two a b => exact assign_replaces lawful copies valid

end Owner

end

end Libdap.Dap4
