import Libdap.Dap2.DdsCopy

/-! # Objects with attribute tables

Copies of objects that are made of variables, of lists and of pairs, by what is known of the
copies of their parts.
-/

namespace Libdap.Dap2

open Dap4 (Name)

/-- What is asked of objects that attribute tables belong to. -/
structure Parts (σ V : Type) where
  aliased : σ → List Ref
  holds : σ → List Ref
  reparent : List (Nat × Nat) → σ → σ
  shown : List (List Name) → σ → V
  Valid : List (List Name) → Nat → σ → Prop
  Typed : σ → Prop

namespace Parts

variable {σ τ V W : Type}

/-- No alias stands for a table of the object itself. -/
def Apart (p : Parts σ V) (x : σ) : Prop := ∀ k, .table k ∈ p.aliased x → .table k ∉ p.holds x

/-- What later changes of the store and of parents do to an object. -/
structure Lawful (p : Parts σ V) (x : σ) : Prop where
  longer : ∀ {vectors vectors' next}, p.Valid vectors next x → vectors <+: vectors' → p.Valid vectors' next x
  shown_longer : ∀ {vectors vectors' next}, p.Valid vectors next x → vectors <+: vectors' →
    p.shown vectors' x = p.shown vectors x
  shown_reparent : ∀ vectors moved, p.shown vectors (p.reparent moved x) = p.shown vectors x
  reparent_self : ∀ moved, (∀ k, .table k ∈ p.holds x → moved.lookup k = none) → p.reparent moved x = x

/-- A copy, for a table with an address, shows the same when no values of an unknown type are lost. -/
def Copies (p : Parts σ V) (x : σ) (parent : Nat) (copy : Store → Option (σ × Store)) : Prop :=
  ∀ (s : Store) (next : Nat), p.Valid s.vectors next x → ∃ x' s', copy s = some (x', s') ∧
    Grew parent (p.aliased x) s s' ∧
    ∀ vectors, s'.vectors <+: vectors → (p.shown vectors x' = p.shown s.vectors x ↔ p.Typed x)

def ofVariable (α : Type) : Parts (Variable α) (Variable.Shown α) where
  aliased := Variable.aliased
  holds := Variable.holds
  reparent := Variable.reparent
  shown := Variable.shown
  Valid := Variable.Valid
  Typed := Variable.Typed

def both (p : Parts σ V) (q : Parts τ W) : Parts (σ × τ) (V × W) where
  aliased x := p.aliased x.1 ++ q.aliased x.2
  holds x := p.holds x.1 ++ q.holds x.2
  reparent moved x := (p.reparent moved x.1, q.reparent moved x.2)
  shown vectors x := (p.shown vectors x.1, q.shown vectors x.2)
  Valid vectors next x := p.Valid vectors next x.1 ∧ q.Valid vectors next x.2
  Typed x := p.Typed x.1 ∧ q.Typed x.2

def list (p : Parts σ V) : Parts (List σ) (List V) where
  aliased xs := xs.flatMap p.aliased
  holds xs := xs.flatMap p.holds
  reparent moved xs := xs.map (p.reparent moved)
  shown vectors xs := xs.map (p.shown vectors)
  Valid vectors next xs := ∀ x ∈ xs, p.Valid vectors next x
  Typed xs := ∀ x ∈ xs, p.Typed x

/-- The one part, and then the other. -/
def inTurn (copy : Store → Option (σ × Store)) (copy' : Store → Option (τ × Store)) (s : Store) :
    Option ((σ × τ) × Store) := do
  let (x, s) ← copy s
  let (y, s) ← copy' s
  some ((x, y), s)

/-- A loop that copies from the first to the last. -/
def copyIn (copy : σ → Store → Option (σ × Store)) : List σ → Store → Option (List σ × Store)
  | [], s => some ([], s)
  | x :: xs, s => do
    let (x, s) ← copy x s
    let (xs, s) ← copyIn copy xs s
    some (x :: xs, s)

section

variable {p : Parts σ V} {q : Parts τ W} {x : σ} {y : τ} {parent : Nat}

theorem ofVariable_lawful {α : Type} (b : Variable α) : (ofVariable α).Lawful b where
  longer valid longer := Variable.Valid.longer longer valid
  shown_longer valid longer := Variable.shown_longer longer b valid
  shown_reparent vectors _ := Variable.shown_reparent vectors b
  reparent_self _ apart := Variable.reparent_self b apart

theorem Lawful.both (first : p.Lawful x) (second : q.Lawful y) : (p.both q).Lawful (x, y) where
  longer valid longer := ⟨first.longer valid.1 longer, second.longer valid.2 longer⟩
  shown_longer valid longer := Prod.ext (first.shown_longer valid.1 longer) (second.shown_longer valid.2 longer)
  shown_reparent vectors moved := Prod.ext (first.shown_reparent vectors moved) (second.shown_reparent vectors moved)
  reparent_self moved apart := by
    apply Prod.ext
    · exact first.reparent_self moved fun k mem => apart k (List.mem_append_left _ mem)
    · exact second.reparent_self moved fun k mem => apart k (List.mem_append_right _ mem)

theorem Copies.both {copy : Store → Option (σ × Store)} {copy' : Store → Option (τ × Store)} (lawful : q.Lawful y)
    (first : p.Copies x parent copy) (second : q.Copies y parent copy') :
    (p.both q).Copies (x, y) parent (inTurn copy copy') := by
  intro s next valid
  obtain ⟨x', s₁, one, grew, same⟩ := first s next valid.1
  obtain ⟨y', s₂, other, grew', same'⟩ := second s₁ next (lawful.longer valid.2 grew.vectors)
  refine ⟨(x', y'), s₂, ?_, grew.trans grew', ?_⟩
  · rw [inTurn, one, Option.bind_eq_bind, Option.bind_some]
    simp only [other, Option.bind_eq_bind, Option.bind_some]
  · intro vectors longer
    have still := lawful.shown_longer valid.2 grew.vectors
    rw [Parts.both]
    simp only [Prod.mk.injEq]
    rw [same vectors (grew'.vectors.trans longer), ← still, same' vectors longer]

/-- An object whose parts are those of a value that it is made of. -/
structure Made (p : Parts σ V) (q : Parts τ W) (make : τ → σ) (makeShown : W → V) (y : τ) : Prop where
  aliased : p.aliased (make y) = q.aliased y
  holds : p.holds (make y) = q.holds y
  reparent : ∀ moved, p.reparent moved (make y) = make (q.reparent moved y)
  shown : ∀ vectors y, p.shown vectors (make y) = makeShown (q.shown vectors y)
  injective : ∀ v w, makeShown v = makeShown w ↔ v = w
  Valid : ∀ vectors next, p.Valid vectors next (make y) ↔ q.Valid vectors next y
  Typed : p.Typed (make y) ↔ q.Typed y

section

variable {make : τ → σ} {makeShown : W → V}

theorem Lawful.made (lawful : q.Lawful y) (made : Made p q make makeShown y) : p.Lawful (make y) where
  longer valid longer := (made.Valid _ _).mpr (lawful.longer ((made.Valid _ _).mp valid) longer)
  shown_longer valid longer := by
    rw [made.shown, made.shown, lawful.shown_longer ((made.Valid _ _).mp valid) longer]
  shown_reparent vectors moved := by
    rw [made.reparent, made.shown, made.shown, lawful.shown_reparent]
  reparent_self moved apart := by
    rw [made.reparent, lawful.reparent_self]
    intro k mem
    exact apart k (made.holds ▸ mem)

theorem Copies.made {copy : Store → Option (τ × Store)} (copies : q.Copies y parent copy)
    (made : Made p q make makeShown y) :
    p.Copies (make y) parent fun s => (copy s).map fun r => (make r.1, r.2) := by
  intro s next valid
  obtain ⟨y', s', done, grew, same⟩ := copies s next ((made.Valid _ _).mp valid)
  refine ⟨make y', s', congrArg _ done, made.aliased ▸ grew, ?_⟩
  intro vectors longer
  rw [made.shown, made.shown, made.injective, same vectors longer, made.Typed]

end

theorem list_cons (p : Parts σ V) (x : σ) (xs : List σ) :
    Made p.list (p.both p.list) (fun z => z.1 :: z.2) (fun v => v.1 :: v.2) (x, xs) where
  aliased := List.flatMap_cons
  holds := List.flatMap_cons
  reparent _ := List.map_cons
  shown _ _ := List.map_cons
  injective v w := by rw [List.cons.injEq, Prod.ext_iff]
  Valid _ _ := List.forall_mem_cons
  Typed := List.forall_mem_cons

theorem Lawful.list {xs : List σ} (all : ∀ x ∈ xs, p.Lawful x) : p.list.Lawful xs := by
  induction xs with
  | nil =>
      constructor
      · intros
        exact List.forall_mem_nil _
      all_goals intros; rfl
  | cons x xs ih =>
      obtain ⟨first, rest⟩ := List.forall_mem_cons.mp all
      exact (first.both (ih rest)).made (list_cons p x xs)

theorem Copies.list {copy : σ → Store → Option (σ × Store)} {xs : List σ} (lawful : ∀ x ∈ xs, p.Lawful x)
    (all : ∀ x ∈ xs, p.Copies x parent (copy x)) : p.list.Copies xs parent (copyIn copy xs) := by
  induction xs with
  | nil =>
      intro s next _
      refine ⟨[], s, rfl, .refl parent s, ?_⟩
      intro vectors _
      exact iff_of_true rfl (List.forall_mem_nil _)
  | cons x xs ih =>
      obtain ⟨first, rest⟩ := List.forall_mem_cons.mp all
      obtain ⟨-, others⟩ := List.forall_mem_cons.mp lawful
      have joined := (Copies.both (Lawful.list others) first (ih others rest)).made (list_cons p x xs)
      intro s next valid
      obtain ⟨xs', s', done, rest⟩ := joined s next valid
      refine ⟨xs', s', ?_, rest⟩
      have done : (inTurn (copy x) (copyIn copy xs) s).map (fun r => (r.1.1 :: r.1.2, r.2)) = some (xs', s') := done
      rw [← done, inTurn, copyIn]
      cases copy x s with
      | none => rfl
      | some r =>
          obtain ⟨x', s₁⟩ := r
          simp only [Option.bind_eq_bind, Option.bind_some]
          cases copyIn copy xs s₁ <;> rfl

end

end Parts

end Libdap.Dap2
