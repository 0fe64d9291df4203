import Libdap.Dap4.Evaluator
import Libdap.Dap4.Flags

/-! # What an accepted constraint marks

Its evaluation is a run of actions in which every array that a clause names, and
every array that lies openly in a variable that one names, is marked. So the
shared dimensions that such an array uses by name are flagged in the end, and the
response declares them.
-/

namespace Libdap.Dap4

open D4ConstraintEvaluator

theorem of_bind_ok {ε α β : Type} {x : Except ε α} {f : α → Except ε β} {b : β} (ok : x >>= f = .ok b) :
    ∃ a, x = .ok a ∧ f a = .ok b := by
  cases x with
  | error e => cases ok
  | ok a => exact ⟨a, rfl, ok⟩

namespace BaseType

mutual

/-- The arrays in a variable with no other array around them. -/
def openArrays : BaseType → List Nat
  | .simple .. => []
  | .array _ _ decl _ => [decl]
  | .constructor _ _ _ vars => openArraysIn vars

def openArraysIn : List BaseType → List Nat
  | [] => []
  | b :: bs => openArrays b ++ openArraysIn bs

end

/-- An array is named with the arrays of its element template. -/
def namedArrays : BaseType → List Nat
  | .array _ _ decl (.constructor _ _ _ vars) => decl :: openArraysIn vars
  | b => openArrays b

end BaseType

/-- Where the fields of a clause are looked up. -/
def fieldsOf (btp : BaseType) (indexes : List Subscript) : BaseType :=
  match btp with
  | .array _ _ _ proto => if indexes = [] then btp else proto
  | .simple .. | .constructor .. => btp

/-- The array is named by the clause, or it lies in a variable that the clause names without
    fields, with no array between the two. -/
inductive Covers (root : D4Group) : Option BaseType → Clause → Nat → Prop where
  | named {top : Option BaseType} {id : Name} {indexes : List Subscript} {filter : List Predicate} {btp : BaseType}
      {decl : Nat} (found : lookup root top id = .ok btp) (mem : decl ∈ btp.namedArrays) :
      Covers root top (.subset id indexes filter) decl
  | opened {top : Option BaseType} {id name : Name} {indexes : List Subscript} {cs : List Clause}
      {filter : List Predicate} {i decl : Nat} {proto : BaseType}
      (found : lookup root top id = .ok (.array i name decl proto)) :
      Covers root top (.fields id indexes cs filter) decl
  | field {top : Option BaseType} {id : Name} {indexes : List Subscript} {cs : List Clause} {c : Clause}
      {filter : List Predicate} {btp : BaseType} {decl : Nat} (found : lookup root top id = .ok btp) (mem : c ∈ cs)
      (covers : Covers root (some (fieldsOf btp indexes)) c decl) :
      Covers root top (.fields id indexes cs filter) decl

/-- An evaluation in which these arrays are marked. -/
def Evaluates (h : Heap) (arrays : Nat → Prop) (h' : Heap) : Prop :=
  ∃ actions, Runs h actions h' ∧ ∀ a, arrays a → ∃ name indexes, Action.mark a name indexes ∈ actions

namespace Evaluates

variable {h h₁ h' : Heap} {p q : Nat → Prop}

theorem nil (h : Heap) (empty : ∀ a, ¬ p a) : Evaluates h p h :=
  ⟨[], .nil h, fun a mem => absurd mem (empty a)⟩

theorem mark {a : Nat} {name : Name} {indexes : List Index} (ok : mark_array_variable h a name indexes = .ok h') :
    Evaluates h (· = a) h' :=
  ⟨[.mark a name indexes], .one ok, fun _ same => ⟨name, indexes, by rw [same]; exact List.mem_cons_self⟩⟩

theorem send (h : Heap) (ids : List Nat) (empty : ∀ a, ¬ p a) : Evaluates h p (h.send ids) :=
  ⟨[.send ids], .one rfl, fun a mem => absurd mem (empty a)⟩

theorem append (first : Evaluates h p h₁) (then_ : Evaluates h₁ q h') : Evaluates h (fun a => p a ∨ q a) h' := by
  obtain ⟨actions, runs, marks⟩ := first
  obtain ⟨actions', runs', marks'⟩ := then_
  refine ⟨actions ++ actions', runs.append runs', ?_⟩
  rintro a (mem | mem)
  · obtain ⟨name, indexes, there⟩ := marks a mem
    exact ⟨name, indexes, List.mem_append_left _ there⟩
  · obtain ⟨name, indexes, there⟩ := marks' a mem
    exact ⟨name, indexes, List.mem_append_right _ there⟩

theorem weaken (evaluates : Evaluates h p h') (fewer : ∀ a, q a → p a) : Evaluates h q h' := by
  obtain ⟨actions, runs, marks⟩ := evaluates
  exact ⟨actions, runs, fun a mem => marks a (fewer a mem)⟩

theorem closed (evaluates : Evaluates h p h') {a : Nat} (mem : p a) : h'.Closed a := by
  obtain ⟨actions, runs, marks⟩ := evaluates
  obtain ⟨name, indexes, there⟩ := marks a mem
  exact runs.marked there

end Evaluates

mutual

theorem searchVar_evaluates (b : BaseType) {h h' : Heap} (ok : searchVar b h = .ok h') :
    Evaluates h (· ∈ b.openArrays) h' := by
  cases b with
  | simple =>
      rw [searchVar] at ok
      cases ok
      exact .nil h (by simp [BaseType.openArrays])
  | array id name decl proto =>
      rw [searchVar] at ok
      exact (Evaluates.mark ok).weaken (by simp [BaseType.openArrays])
  | constructor id name kind vars =>
      rw [searchVar] at ok
      rw [BaseType.openArrays]
      exact searchVars_evaluates vars ok

theorem searchVars_evaluates (vars : List BaseType) {h h' : Heap} (ok : searchVars vars h = .ok h') :
    Evaluates h (· ∈ BaseType.openArraysIn vars) h' := by
  cases vars with
  | nil =>
      rw [searchVars] at ok
      cases ok
      exact .nil h (by simp [BaseType.openArraysIn])
  | cons b bs =>
      rw [searchVars] at ok
      obtain ⟨h₁, first, rest⟩ := of_bind_ok ok
      refine ((searchVar_evaluates b first).append (searchVars_evaluates bs rest)).weaken fun a mem => ?_
      rwa [BaseType.openArraysIn, List.mem_append] at mem

end

theorem mark_arrays_evaluates {h h' : Heap} {btp : BaseType} {indexes : List Index}
    (ok : mark_arrays h indexes btp = .ok h') : Evaluates h (· ∈ btp.namedArrays) h' := by
  cases btp with
  | simple =>
      cases ok
      exact .nil _ (by simp [BaseType.namedArrays, BaseType.openArrays])
  | constructor id name kind vars =>
      simp only [BaseType.namedArrays, BaseType.openArrays]
      exact searchVars_evaluates vars ok
  | array id name decl proto =>
      obtain ⟨h₁, first, rest⟩ := of_bind_ok ok
      cases proto with
      | constructor id' name' kind vars =>
          refine ((Evaluates.mark first).append (searchVars_evaluates vars rest)).weaken fun a mem => ?_
          exact List.mem_cons.mp mem
      | simple | array =>
          cases rest
          exact (Evaluates.mark first).weaken (by simp [BaseType.namedArrays, BaseType.openArrays])

theorem mark_variable_evaluates {root : D4Group} {h h' : Heap} {btp : BaseType} {indexes : List Index}
    (ok : mark_variable root h btp indexes = .ok h') : Evaluates h (· ∈ btp.namedArrays) h' := by
  unfold mark_variable at ok
  have sent : Evaluates h (fun _ => False) (h.send btp.ids) := .send h btp.ids (fun _ no => no)
  obtain ⟨h₁, marked, last⟩ := of_bind_ok ok
  obtain rfl := Except.ok.inj last
  have parents : Evaluates h₁ (fun _ => False) (h₁.send ((root.parents btp.id).getD [])) :=
    .send h₁ _ (fun _ no => no)
  exact ((sent.append (mark_arrays_evaluates marked)).append parents).weaken fun a mem => .inl (.inr mem)

theorem mapM_make_index_nil {indexes : List Subscript} {is : List Index} (ok : indexes.mapM make_index = .ok is) :
    is = [] ↔ indexes = [] := by
  cases indexes with
  | nil =>
      cases ok
      exact iff_of_true rfl rfl
  | cons i indexes =>
      rw [List.mapM_cons] at ok
      obtain ⟨a, -, rest⟩ := of_bind_ok ok
      obtain ⟨as, -, last⟩ := of_bind_ok rest
      cases last
      simp

/-- The array itself is marked before its fields. -/
theorem openFields_evaluates {h h' : Heap} {btp top : BaseType} {indexes : List Subscript} {is : List Index}
    (ok : openFields h btp is = .ok (h', top)) (read : indexes.mapM make_index = .ok is) :
    top = fieldsOf btp indexes ∧
      Evaluates h (fun a => ∃ i name proto, btp = .array i name a proto) h' := by
  have none := mapM_make_index_nil read
  cases btp with
  | simple =>
      simp only [openFields] at ok
      split at ok <;> cases ok
  | constructor id name kind vars =>
      simp only [openFields] at ok
      split at ok
      · cases ok
        exact ⟨rfl, .nil h (by simp)⟩
      · cases ok
  | array id name decl proto =>
      have same : ∀ a, (∃ i n p, BaseType.array id name decl proto = .array i n a p) → a = decl := by
        rintro a ⟨i, n, p, eq⟩
        injection eq with _ _ decl_
        exact decl_.symm
      simp only [openFields] at ok
      split at ok
      · rename_i empty
        split at ok
        · obtain ⟨h₁, marked, last⟩ := of_bind_ok ok
          cases last
          exact ⟨by rw [fieldsOf, if_pos (none.mp empty)], (Evaluates.mark marked).weaken same⟩
        · cases ok
      · rename_i some_
        obtain ⟨h₁, marked, last⟩ := of_bind_ok ok
        split at last
        · cases last
          exact ⟨by rw [fieldsOf, if_neg (fun eq => some_ (none.mpr eq))], (Evaluates.mark marked).weaken same⟩
        · cases last

variable {rvalue : Name → Except String Unit} {root : D4Group}

mutual

theorem clause_evaluates (c : Clause) {top : Option BaseType} {h h' : Heap} (ok : clause rvalue root top c h = .ok h') :
    Evaluates h (Covers root top c) h' := by
  cases c with
  | subset id indexes filter =>
      rw [clause] at ok
      obtain ⟨is, read, ok⟩ := of_bind_ok ok
      obtain ⟨btp, found, ok⟩ := of_bind_ok ok
      have marked : ∃ h₁, mark_variable root h btp is = .ok h₁ ∧ h₁ = h' := by
        split at ok
        · cases ok
        · cases ok
        · obtain ⟨h₁, marked, ok⟩ := of_bind_ok ok
          obtain ⟨-, -, last⟩ := of_bind_ok ok
          exact ⟨h₁, marked, Except.ok.inj last⟩
      obtain ⟨h₁, marked, rfl⟩ := marked
      refine (mark_variable_evaluates marked).weaken fun a covers => ?_
      cases covers with
      | named found' mem =>
          obtain rfl := Except.ok.inj (found.symm.trans found')
          exact mem
  | fields id indexes cs filter =>
      rw [clause] at ok
      obtain ⟨is, read, ok⟩ := of_bind_ok ok
      obtain ⟨btp, found, ok⟩ := of_bind_ok ok
      obtain ⟨⟨h₁, top'⟩, opened, ok⟩ := of_bind_ok ok
      obtain ⟨h₂, inside, ok⟩ := of_bind_ok ok
      obtain ⟨-, -, last⟩ := of_bind_ok ok
      obtain rfl := Except.ok.inj last
      obtain ⟨rfl, first⟩ := openFields_evaluates opened read
      refine (first.append (clauses_evaluates cs inside)).weaken fun a covers => ?_
      cases covers with
      | opened found' =>
          obtain rfl := Except.ok.inj (found.symm.trans found')
          exact .inl ⟨_, _, _, rfl⟩
      | field found' mem covers =>
          obtain rfl := Except.ok.inj (found.symm.trans found')
          exact .inr ⟨_, mem, covers⟩

theorem clauses_evaluates (cs : List Clause) {top : Option BaseType} {h h' : Heap}
    (ok : clauses rvalue root top cs h = .ok h') : Evaluates h (fun a => ∃ c ∈ cs, Covers root top c a) h' := by
  cases cs with
  | nil =>
      rw [clauses] at ok
      cases ok
      exact .nil h (by simp)
  | cons c cs =>
      rw [clauses] at ok
      obtain ⟨h₁, first, rest⟩ := of_bind_ok ok
      refine ((clause_evaluates c first).append (clauses_evaluates cs rest)).weaken ?_
      rintro a ⟨c', mem, covers⟩
      rcases List.mem_cons.mp mem with rfl | mem
      · exact .inl covers
      · exact .inr ⟨c', mem, covers⟩

end

theorem dimensions_evaluates {ds : List (Name × Subscript)} {h h' : Heap} (ok : dimensions root ds h = .ok h') :
    Evaluates h (fun _ => False) h' := by
  induction ds generalizing h with
  | nil =>
      cases ok
      exact .nil _ fun _ no => no
  | cons d ds ih =>
      obtain ⟨id, i⟩ := d
      obtain ⟨h₁, first, rest⟩ := of_bind_ok ok
      obtain ⟨index, -, first⟩ := of_bind_ok first
      obtain ⟨dim, -, first⟩ := of_bind_ok first
      cases dim with
      | none => cases first
      | some dim =>
          have one : Evaluates h (fun _ => False) h₁ :=
            ⟨[.slice id dim index], .one first, fun _ no => no.elim⟩
          exact (one.append (ih rest)).weaken fun _ no => .inl no

theorem parse_evaluates {h h' : Heap} {expr : Expression} (ok : parse rvalue root h expr = .ok h') :
    Evaluates h (fun a => ∃ c ∈ expr.clauses, Covers root none c a) h' := by
  obtain ⟨h₁, first, rest⟩ := of_bind_ok ok
  exact ((dimensions_evaluates first).append (clauses_evaluates _ rest)).weaken fun a covers => .inr covers

/-- An accepted constraint is the evaluation of a list of actions. -/
theorem parse_actions {h h' : Heap} {expr : Expression} (ok : parse rvalue root h expr = .ok h') :
    ∃ actions asked, evaluate h (fun _ => none) actions = .ok (h', asked) := by
  obtain ⟨actions, runs, -⟩ := parse_evaluates ok
  obtain ⟨asked, done⟩ := runs.evaluate fun _ => none
  exact ⟨actions, asked, done⟩

end Libdap.Dap4
