import Libdap.Dap4.FilterCopies
import Mathlib.Data.List.Forall2

/-! # What the clauses of a copied Sequence look at

The clauses of a copy look at variables of the original as soon as one is reached that names a variable. Up to
there they have constant values, and which clauses are reached depends on these alone.
-/

namespace Libdap.Dap4.Filtered

open CellProgram

/-! ## Clauses that are reached -/

section

variable {V : Type} (leftFirst : Bool) (d4_ops : V → V → ops → Except Failure Bool)

/-- What an argument comes to, unless it is a variable. -/
def D4RValue.constantly : D4RValue V → Option (Except Failure V)
  | basetype _ => none
  | function => some (.error noFunction)
  | constant d_constant => some (.ok d_constant)

/-- Two arguments, one after the other. -/
def both (first second : Option (Except Failure V)) (compare : V → V → Except Failure Bool) :
    Option (Except Failure Bool) :=
  match first, second with
  | none, _ => none
  | some (.error e), _ => some (.error e)
  | some (.ok _), none => none
  | some (.ok _), some (.error e) => some (.error e)
  | some (.ok a), some (.ok b) => some (compare a b)

def D4FilterClause.constantly (c : D4FilterClause V) : Option (Except Failure Bool) :=
  match c.d_op.refused with
  | some message => some (.error (.InternalErr message))
  | none =>
    if leftFirst then both c.d_arg1.constantly c.d_arg2.constantly fun a b => d4_ops a b c.d_op
    else both c.d_arg2.constantly c.d_arg1.constantly fun b a => d4_ops a b c.d_op

/-- What a list of clauses comes to, unless a clause is reached that looks at a variable. -/
def D4FilterClauseList.constantly : List (D4FilterClause V) → Option (Except Failure Bool)
  | [] => some (.ok true)
  | c :: cs =>
    match c.constantly leftFirst d4_ops with
    | some (.ok true) => constantly cs
    | r => r

/-- The clauses look at a variable. -/
def D4Sequence.Fields.reaches (fields : D4Sequence.Fields V) : Bool :=
  match fields.d_clauses with
  | none => false
  | some cs => (D4FilterClauseList.constantly leftFirst d4_ops cs).isNone

/-- The clauses do not always refuse a row. -/
def D4Sequence.Fields.mayKeep (fields : D4Sequence.Fields V) : Bool :=
  match fields.d_clauses with
  | none => true
  | some cs =>
    match D4FilterClauseList.constantly leftFirst d4_ops cs with
    | none => true
    | some (.ok holds) => holds
    | some (.error _) => false

namespace Variable

mutual

/-- While rows are read a clause looks at a variable: one of the Sequence, or one of a Sequence among the variables
that are sent. -/
def reaches : Variable V → Bool
  | sequence _ _ fields _ d_vars =>
    fields.reaches leftFirst d4_ops || (fields.mayKeep leftFirst d4_ops && reachesIn d_vars)
  | simple .. | array .. | struct .. | group .. => false

def reachesIn : List (Variable V) → Bool
  | [] => false
  | v :: vs => (v.send_p && v.reaches) || reachesIn vs

end

end Variable

end

section

variable {V : Type}

def D4RValue.pointers : D4RValue V → List Pointer
  | basetype d_variable => [d_variable]
  | function | constant _ => []

def D4FilterClause.pointers (c : D4FilterClause V) : List Pointer := c.d_arg1.pointers ++ c.d_arg2.pointers

def D4Sequence.Fields.pointers (fields : D4Sequence.Fields V) : List Pointer :=
  (fields.d_clauses.getD []).flatMap D4FilterClause.pointers

namespace Variable

mutual

/-- The variables that the clauses name which are evaluated while rows are read. -/
def pointers : Variable V → List Pointer
  | sequence _ _ fields _ d_vars => fields.pointers ++ pointersIn d_vars
  | simple .. | array .. | struct .. | group .. => []

def pointersIn : List (Variable V) → List Pointer
  | [] => []
  | v :: vs => v.pointers ++ pointersIn vs

end

mutual

/-- All Sequences in a variable, with those in rows. -/
def sequences : Variable V → List (Variable V)
  | simple .. => []
  | array _ _ d_proto d_compound_buf => d_proto.sequences ++ sequencesIn d_compound_buf
  | struct _ _ d_vars => sequencesIn d_vars
  | sequence addr send_p fields d_values d_vars =>
    sequence addr send_p fields d_values d_vars :: (sequencesIn d_vars ++ sequencesRows d_values)
  | group _ _ d_vars d_groups => sequencesIn d_vars ++ sequencesIn d_groups

def sequencesIn : List (Variable V) → List (Variable V)
  | [] => []
  | v :: vs => v.sequences ++ sequencesIn vs

def sequencesRows : List (List (Variable V)) → List (Variable V)
  | [] => []
  | row :: rows => sequencesIn row ++ sequencesRows rows

end

/-- The clauses of a Sequence. -/
def clauses : Variable V → List (D4FilterClause V)
  | sequence _ _ fields _ _ => fields.d_clauses.getD []
  | simple .. | array .. | struct .. | group .. => []

end Variable

/-- The truth value of the clauses is one of the copy's own variables, and rows are read into the copy without a look
at the original or a change of it. -/
structure Isolated (leftFirst : Bool) (d4_ops : V → V → ops → Except Failure Bool) (original : Variable V) (now : Nat)
    (copy : Variable V) : Prop where
  truth : ∀ (handler : Handler V) (s s' : CellStore (Cell V)), (∀ a ∈ copy.addrs, s.cells a = s'.cells a) →
    (D4FilterClauseList.value leftFirst d4_ops handler copy.clauses).outcome s =
      (D4FilterClauseList.value leftFirst d4_ops handler copy.clauses).outcome s'
  frame : ∀ (handler : Handler V) (filter : Bool) (fuel : Nat) (s : CellStore (Cell V)), now ≤ s.next → s.touched = [] →
    ∀ a ∈ original.addrs,
      a ∉ ((D4Sequence.read_sequence_values leftFirst d4_ops handler filter fuel copy).final s).touched ∧
      ((D4Sequence.read_sequence_values leftFirst d4_ops handler filter fuel copy).final s).cells a = s.cells a

end

/-! ## Evaluation -/

section

variable {V : Type} {leftFirst : Bool} {d4_ops : V → V → ops → Except Failure Bool} {handler : Handler V}

theorem value_of_constantly {rv : D4RValue V} {r : Except Failure V} (same : rv.constantly = some r) :
    rv.value handler = returned (r.map .constant) := by
  cases rv with
  | basetype p => cases same
  | function =>
      cases same
      rfl
  | constant k =>
      cases same
      rfl

variable {first second : D4RValue V} {compare : V → V → Except Failure Bool} {k : Operand V → Operand V → Program V Bool}

/-- Two arguments that are no variables. -/
theorem both_value_eq {r : Except Failure Bool} (same : both first.constantly second.constantly compare = some r)
    (compared : ∀ a b, k (.constant a) (.constant b) = returned (compare a b)) :
    (do let a ← first.value handler; let b ← second.value handler; k a b) = returned r := by
  cases one : first.constantly with
  | none =>
      rw [one] at same
      cases same
  | some r₁ =>
      rw [value_of_constantly one]
      rw [one] at same
      cases r₁ with
      | error e =>
          cases same
          rfl
      | ok a =>
          cases two : second.constantly with
          | none =>
              rw [two] at same
              cases same
          | some r₂ =>
              rw [value_of_constantly two]
              rw [two] at same
              cases r₂ with
              | error e =>
                  cases same
                  rfl
              | ok b =>
                  cases same
                  exact compared a b

theorem cmp_constants (op : ops) (a b : V) :
    D4FilterClause.cmp d4_ops op (.constant a) (.constant b) = returned (d4_ops a b op) := rfl

/-- Without a variable a clause is evaluated to a constant. -/
theorem clause_value_eq {c : D4FilterClause V} {r : Except Failure Bool} (same : c.constantly leftFirst d4_ops = some r) :
    c.value leftFirst d4_ops handler = returned r := by
  unfold D4FilterClause.constantly at same
  unfold D4FilterClause.value
  cases refused : c.d_op.refused with
  | some message =>
      rw [refused] at same
      cases same
      rfl
  | none =>
      rw [refused] at same
      cases leftFirst with
      | true => exact both_value_eq same (cmp_constants c.d_op)
      | false => exact both_value_eq same fun b a => cmp_constants c.d_op a b

theorem list_value_eq {cs : List (D4FilterClause V)} {r : Except Failure Bool}
    (same : D4FilterClauseList.constantly leftFirst d4_ops cs = some r) :
    D4FilterClauseList.value leftFirst d4_ops handler cs = returned r := by
  induction cs with
  | nil =>
      cases same
      rfl
  | cons c cs ih =>
      rw [D4FilterClauseList.constantly] at same
      rw [D4FilterClauseList.value]
      cases one : c.constantly leftFirst d4_ops with
      | none =>
          rw [one] at same
          cases same
      | some r₁ =>
          rw [one] at same
          rw [clause_value_eq one]
          cases r₁ with
          | error e =>
              cases same
              rfl
          | ok holds =>
              cases holds with
              | true => exact ih same
              | false =>
                  cases same
                  rfl

/-! ## Variables that are looked at -/

variable {n : Nat}

theorem beyond_value {rv : D4RValue V} (beyond : ∀ p ∈ rv.pointers, ∀ a ∈ p.addrs, n ≤ a) :
    Beyond n (rv.value handler) fun operand => ∀ a, operand = .variable_ a → n ≤ a := by
  cases rv with
  | basetype p =>
      have own := beyond p (List.mem_singleton_self p)
      apply beyond_bind (beyond_call (handler.read_own p) own)
      intro _ _
      apply beyond_bind (beyond_change own)
      intro _ _
      apply beyond_pure
      intro a same
      cases same
      exact own p.addr List.mem_cons_self
  | function => exact beyond_throw _
  | constant value =>
      apply beyond_pure
      intro a same
      cases same

theorem beyond_get {operand : Operand V} (beyond : ∀ a, operand = .variable_ a → n ≤ a) :
    Beyond n operand.get fun _ => True := by
  cases operand with
  | variable_ addr =>
      apply beyond_bind (beyond_fetch (beyond addr rfl))
      intro c _
      exact beyond_pure trivial
  | constant value => exact beyond_pure trivial

theorem beyond_cmp {op : ops} {arg1 arg2 : Operand V} (beyond : ∀ a, arg1 = .variable_ a → n ≤ a)
    (beyond' : ∀ a, arg2 = .variable_ a → n ≤ a) : Beyond n (D4FilterClause.cmp d4_ops op arg1 arg2) fun _ => True := by
  apply beyond_bind (beyond_get beyond)
  intro a _
  apply beyond_bind (beyond_get beyond')
  intro b _
  exact beyond_returned fun _ _ => trivial

theorem beyond_clause {c : D4FilterClause V} (beyond : ∀ p ∈ c.pointers, ∀ a ∈ p.addrs, n ≤ a) :
    Beyond n (c.value leftFirst d4_ops handler) fun _ => True := by
  have left : ∀ p ∈ c.d_arg1.pointers, ∀ a ∈ p.addrs, n ≤ a := fun p mem => beyond p (List.mem_append_left _ mem)
  have right : ∀ p ∈ c.d_arg2.pointers, ∀ a ∈ p.addrs, n ≤ a := fun p mem => beyond p (List.mem_append_right _ mem)
  unfold D4FilterClause.value
  cases c.d_op.refused with
  | some message => exact beyond_throw _
  | none =>
      cases leftFirst with
      | true =>
          apply beyond_bind (beyond_value left)
          intro arg1 own
          apply beyond_bind (beyond_value right)
          intro arg2 own'
          exact beyond_cmp own own'
      | false =>
          apply beyond_bind (beyond_value right)
          intro arg2 own'
          apply beyond_bind (beyond_value left)
          intro arg1 own
          exact beyond_cmp own own'

theorem beyond_list {cs : List (D4FilterClause V)} (beyond : ∀ c ∈ cs, ∀ p ∈ c.pointers, ∀ a ∈ p.addrs, n ≤ a) :
    Beyond n (D4FilterClauseList.value leftFirst d4_ops handler cs) fun _ => True := by
  induction cs with
  | nil => exact beyond_pure trivial
  | cons c cs ih =>
      apply beyond_bind (beyond_clause (beyond c List.mem_cons_self))
      intro holds _
      cases holds with
      | false => exact beyond_pure trivial
      | true => exact ih fun c mem => beyond c (List.mem_cons_of_mem _ mem)

/-- A pointer that is followed leaves its trace. -/
def Looks (p : Program V Bool) (pointers : List Pointer) (s : CellStore (Cell V)) : Prop :=
  ∃ q ∈ pointers, q.addr ∈ (p.final s).touched

variable (handler) in
theorem value_looks {rv : D4RValue V} (variable_ : rv.constantly = none) (s : CellStore (Cell V)) :
    ∃ q ∈ rv.pointers, q.addr ∈ ((rv.value handler).final s).touched := by
  cases rv with
  | basetype p =>
      refine ⟨p, List.mem_singleton_self p, ?_⟩
      apply touched_of_bind
      · rw [touched_call]
        exact List.mem_append_right _ List.mem_cons_self
      · intro _
        apply beyond_bind (beyond_change fun _ _ => Nat.zero_le _)
        intro _ _
        exact beyond_pure trivial
  | function => cases variable_
  | constant value => cases variable_

variable (handler) in
theorem both_looks (variable_ : both first.constantly second.constantly compare = none)
    (bounded : ∀ a b, Beyond 0 (k a b) fun _ => True) (s : CellStore (Cell V)) :
    Looks (do let a ← first.value handler; let b ← second.value handler; k a b) (first.pointers ++ second.pointers) s := by
  cases one : first.constantly with
  | none =>
      obtain ⟨q, mem, touched⟩ := value_looks handler one s
      refine ⟨q, List.mem_append_left _ mem, ?_⟩
      apply touched_of_bind touched
      intro a
      apply beyond_bind (beyond_value fun _ _ _ _ => Nat.zero_le _)
      intro b _
      exact bounded a b
  | some r₁ =>
      rw [one] at variable_
      rw [Looks, value_of_constantly one]
      cases r₁ with
      | error e => cases variable_
      | ok a =>
          cases two : second.constantly with
          | none =>
              obtain ⟨q, mem, touched⟩ := value_looks handler two s
              refine ⟨q, List.mem_append_right _ mem, ?_⟩
              change q.addr ∈ (final (second.value handler >>= fun b => k (.constant a) b) s).touched
              exact touched_of_bind touched fun b => bounded _ b
          | some r₂ =>
              rw [two] at variable_
              cases r₂ <;> cases variable_

variable (handler) in
theorem clause_looks {c : D4FilterClause V} (variable_ : c.constantly leftFirst d4_ops = none) (s : CellStore (Cell V)) :
    Looks (c.value leftFirst d4_ops handler) c.pointers s := by
  have bounded (op : ops) (a b : Operand V) : Beyond 0 (D4FilterClause.cmp d4_ops op a b) fun _ => True :=
    beyond_cmp (fun _ _ => Nat.zero_le _) fun _ _ => Nat.zero_le _
  unfold D4FilterClause.constantly at variable_
  unfold D4FilterClause.value
  cases refused : c.d_op.refused with
  | some message =>
      rw [refused] at variable_
      cases variable_
  | none =>
      rw [refused] at variable_
      cases leftFirst with
      | true => exact both_looks handler variable_ (bounded c.d_op) s
      | false =>
          obtain ⟨q, mem, touched⟩ := both_looks handler variable_ (fun b a => bounded c.d_op a b) s
          refine ⟨q, ?_, touched⟩
          rw [List.mem_append] at mem
          exact List.mem_append.mpr mem.symm

variable (handler) in
theorem list_looks {cs : List (D4FilterClause V)} (variable_ : D4FilterClauseList.constantly leftFirst d4_ops cs = none)
    (s : CellStore (Cell V)) :
    Looks (D4FilterClauseList.value leftFirst d4_ops handler cs) (cs.flatMap D4FilterClause.pointers) s := by
  have rest (cs : List (D4FilterClause V)) (holds : Bool) : Beyond 0
      (if holds = false then pure false else D4FilterClauseList.value leftFirst d4_ops handler cs) fun _ => True := by
    cases holds with
    | false => exact beyond_pure trivial
    | true => exact beyond_list fun _ _ _ _ _ _ => Nat.zero_le _
  induction cs with
  | nil => cases variable_
  | cons c cs ih =>
      rw [D4FilterClauseList.constantly] at variable_
      rw [D4FilterClauseList.value, List.flatMap_cons]
      cases one : c.constantly leftFirst d4_ops with
      | none =>
          obtain ⟨q, mem, touched⟩ := clause_looks handler one s
          exact ⟨q, List.mem_append_left _ mem, touched_of_bind touched (rest cs)⟩
      | some r₁ =>
          rw [one] at variable_
          rw [clause_value_eq one]
          cases r₁ with
          | error e => cases variable_
          | ok holds =>
              cases holds with
              | false => cases variable_
              | true =>
                  obtain ⟨q, mem, touched⟩ := ih variable_
                  exact ⟨q, List.mem_append_right _ mem, touched⟩

end

/-! ## Copies -/

section

variable {V : Type} {leftFirst : Bool} {d4_ops : V → V → ops → Except Failure Bool}

/-- The variables are alike but for their addresses and their rows. -/
structure Like (leftFirst : Bool) (d4_ops : V → V → ops → Except Failure Bool) (v v' : Variable V) : Prop where
  send_p : v'.send_p = v.send_p
  clauses : v'.clauses = v.clauses
  reaches : v'.reaches leftFirst d4_ops = v.reaches leftFirst d4_ops
  pointers : v'.pointers = v.pointers

/-- A copy, in cells between two addresses. -/
structure CopyOf (leftFirst : Bool) (d4_ops : V → V → ops → Except Failure Bool) (n m : Nat) (v v' : Variable V) :
    Prop where
  like : Like leftFirst d4_ops v v'
  addrs : ∀ a ∈ v'.addrs, n ≤ a ∧ a < m
  sequences : List.Forall₂ (fun s s' => Like leftFirst d4_ops s s' ∧ ∀ a ∈ s'.addrs, n ≤ a ∧ a < m) v.sequences v'.sequences

theorem CopyOf.widen {n n' m m' : Nat} {v v' : Variable V} (copy : CopyOf leftFirst d4_ops n m v v') (low : n' ≤ n)
    (high : m ≤ m') : CopyOf leftFirst d4_ops n' m' v v' where
  like := copy.like
  addrs a mem := ⟨Nat.le_trans low (copy.addrs a mem).1, Nat.lt_of_lt_of_le (copy.addrs a mem).2 high⟩
  sequences := copy.sequences.imp fun _ _ both =>
    ⟨both.1, fun a mem => ⟨Nat.le_trans low (both.2 a mem).1, Nat.lt_of_lt_of_le (both.2 a mem).2 high⟩⟩

/-- A copied clause points where the clause points. -/
theorem m_duplicate_fields (fields : D4Sequence.Fields V) : fields.m_duplicate = fields := by
  have argument (rv : D4RValue V) : rv.m_duplicate = rv := by
    cases rv <;> rfl
  have clause : D4FilterClause.m_duplicate (V := V) = id := by
    funext c
    simp only [D4FilterClause.m_duplicate, argument, id]
  have list : D4FilterClauseList.m_duplicate (V := V) [] = id := by
    funext cs
    rw [D4FilterClauseList.m_duplicate, clause, List.map_id, List.nil_append]
    rfl
  rw [D4Sequence.Fields.m_duplicate, list, Option.map_id]
  rfl

section

variable {n m : Nat} {vs vs' : List (Variable V)} {rows rows' : List (List (Variable V))}

theorem likes (all : List.Forall₂ (Like leftFirst d4_ops) vs vs') :
    Variable.reachesIn leftFirst d4_ops vs' = Variable.reachesIn leftFirst d4_ops vs ∧
      Variable.pointersIn vs' = Variable.pointersIn vs := by
  induction all with
  | nil => exact ⟨rfl, rfl⟩
  | cons like _ ih =>
      simp only [Variable.reachesIn, Variable.pointersIn, like.send_p, like.reaches, like.pointers, ih, and_self]

theorem copies_addrs (all : List.Forall₂ (CopyOf leftFirst d4_ops n m) vs vs') :
    ∀ a ∈ Variable.addrsIn vs', n ≤ a ∧ a < m := by
  induction all with
  | nil =>
      intro a mem
      cases mem
  | cons copy _ ih =>
      intro a mem
      rcases List.mem_append.mp mem with mem | mem
      · exact copy.addrs a mem
      · exact ih a mem

theorem copies_sequences (all : List.Forall₂ (CopyOf leftFirst d4_ops n m) vs vs') :
    List.Forall₂ (fun s s' => Like leftFirst d4_ops s s' ∧ ∀ a ∈ s'.addrs, n ≤ a ∧ a < m) (Variable.sequencesIn vs)
      (Variable.sequencesIn vs') := by
  induction all with
  | nil => exact .nil
  | cons copy _ ih => exact List.rel_append copy.sequences ih

theorem rows_addrs (all : List.Forall₂ (List.Forall₂ (CopyOf leftFirst d4_ops n m)) rows rows') :
    ∀ a ∈ Variable.addrsRows rows', n ≤ a ∧ a < m := by
  induction all with
  | nil =>
      intro a mem
      cases mem
  | cons row _ ih =>
      intro a mem
      rcases List.mem_append.mp mem with mem | mem
      · exact copies_addrs row a mem
      · exact ih a mem

theorem rows_sequences (all : List.Forall₂ (List.Forall₂ (CopyOf leftFirst d4_ops n m)) rows rows') :
    List.Forall₂ (fun s s' => Like leftFirst d4_ops s s' ∧ ∀ a ∈ s'.addrs, n ≤ a ∧ a < m) (Variable.sequencesRows rows)
      (Variable.sequencesRows rows') := by
  induction all with
  | nil => exact .nil
  | cons row _ ih => exact List.rel_append (copies_sequences row) ih

/-- The parts of a copy stay copies when more is copied. -/
theorem widen_all {n' m' : Nat} (all : List.Forall₂ (CopyOf leftFirst d4_ops n m) vs vs') (low : n' ≤ n) (high : m ≤ m') :
    List.Forall₂ (CopyOf leftFirst d4_ops n' m') vs vs' := all.imp fun _ _ copy => copy.widen low high

theorem widen_rows {n' m' : Nat} (all : List.Forall₂ (List.Forall₂ (CopyOf leftFirst d4_ops n m)) rows rows')
    (low : n' ≤ n) (high : m ≤ m') : List.Forall₂ (List.Forall₂ (CopyOf leftFirst d4_ops n' m')) rows rows' :=
  all.imp fun _ _ row => widen_all row low high

/-- A Sequence is like its copy: its clauses are, and what is read with it. -/
theorem like_sequence {addr addr' : Nat} {send_p : Bool} {fields : D4Sequence.Fields V}
    {d_values d_values' : List (List (Variable V))} (all : List.Forall₂ (Like leftFirst d4_ops) vs vs') :
    Like leftFirst d4_ops (.sequence addr send_p fields d_values vs) (.sequence addr' send_p fields d_values' vs') := by
  obtain ⟨reaches, pointers⟩ := likes all
  constructor
  · rfl
  · rfl
  · rw [Variable.reaches, Variable.reaches, reaches]
  · rw [Variable.pointers, Variable.pointers, pointers]

variable {addrs : List Nat}

mutual

/-- A copy of a variable is one of all its parts. -/
theorem allots_ptr_duplicate (v : Variable V) (inside : ∀ a ∈ v.addrs, a ∈ addrs) (n : Nat) :
    Allots n addrs (fun m v' => CopyOf leftFirst d4_ops n m v v') v.ptr_duplicate := by
  cases v with
  | simple addr send_p =>
      rw [Variable.ptr_duplicate, Variable.duplicate]
      apply allots_bind (allots_copy (inside addr List.mem_cons_self))
      rintro _ _ - ⟨rfl, rfl⟩
      apply allots_pure
      refine ⟨⟨rfl, rfl, rfl, rfl⟩, ?_, .nil⟩
      intro a mem
      rw [List.mem_singleton.mp mem]
      exact ⟨Nat.le_refl _, Nat.lt_succ_self _⟩
  | array addr send_p d_proto d_compound_buf =>
      have proto : ∀ a ∈ d_proto.addrs, a ∈ addrs := fun a mem =>
        inside a (List.mem_cons_of_mem _ (List.mem_append_left _ mem))
      have elements : ∀ a ∈ Variable.addrsIn d_compound_buf, a ∈ addrs := fun a mem =>
        inside a (List.mem_cons_of_mem _ (List.mem_append_right _ mem))
      rw [Variable.ptr_duplicate, Variable.duplicate]
      apply allots_bind (allots_copy (inside addr List.mem_cons_self))
      rintro _ _ - ⟨rfl, rfl⟩
      apply allots_bind (allots_ptr_duplicate d_proto proto _)
      intro m d_proto' low copy
      apply allots_bind (allots_ptr_duplicate_vars d_compound_buf elements m)
      intro l elements' high copies
      apply allots_pure
      have copy' := copy.widen (Nat.le_succ _) high
      have copies' := widen_all copies (Nat.le_trans (Nat.le_succ _) low) (Nat.le_refl l)
      refine ⟨⟨rfl, rfl, rfl, rfl⟩, ?_, List.rel_append copy'.sequences (copies_sequences copies')⟩
      intro a mem
      rcases List.mem_cons.mp mem with rfl | mem
      · exact ⟨Nat.le_refl _, Nat.lt_of_lt_of_le low high⟩
      · rcases List.mem_append.mp mem with mem | mem
        · exact copy'.addrs a mem
        · exact copies_addrs copies' a mem
  | struct addr send_p d_vars =>
      have parts : ∀ a ∈ Variable.addrsIn d_vars, a ∈ addrs := fun a mem => inside a (List.mem_cons_of_mem _ mem)
      rw [Variable.ptr_duplicate, Variable.duplicate]
      apply allots_bind (allots_copy (inside addr List.mem_cons_self))
      rintro _ _ - ⟨rfl, rfl⟩
      apply allots_bind (allots_ptr_duplicate_vars d_vars parts _)
      intro m d_vars' low copies
      apply allots_pure
      have copies' := widen_all copies (Nat.le_succ _) (Nat.le_refl m)
      refine ⟨⟨rfl, rfl, rfl, rfl⟩, ?_, copies_sequences copies'⟩
      intro a mem
      rcases List.mem_cons.mp mem with rfl | mem
      · exact ⟨Nat.le_refl _, low⟩
      · exact copies_addrs copies' a mem
  | sequence addr send_p fields d_values d_vars =>
      have parts : ∀ a ∈ Variable.addrsIn d_vars, a ∈ addrs := fun a mem =>
        inside a (List.mem_cons_of_mem _ (List.mem_append_left _ mem))
      have rows_ : ∀ a ∈ Variable.addrsRows d_values, a ∈ addrs := fun a mem =>
        inside a (List.mem_cons_of_mem _ (List.mem_append_right _ mem))
      rw [Variable.ptr_duplicate, Variable.duplicate]
      apply allots_bind (allots_copy (inside addr List.mem_cons_self))
      rintro _ start - ⟨rfl, rfl⟩
      apply allots_bind (allots_ptr_duplicate_vars d_vars parts _)
      intro m d_vars' low copies
      apply allots_bind (allots_ptr_duplicate_rows d_values rows_ m)
      intro l d_values' high rowCopies
      apply allots_pure
      rw [m_duplicate_fields]
      have copies' := widen_all copies (Nat.le_succ start) high
      have rowCopies' := widen_rows rowCopies (Nat.le_trans (Nat.le_succ start) low) (Nat.le_refl l)
      have like : Like leftFirst d4_ops (.sequence addr send_p fields d_values d_vars)
          (.sequence start send_p fields d_values' d_vars') := like_sequence (copies'.imp fun _ _ copy => copy.like)
      have own : ∀ a ∈ (Variable.sequence start send_p fields d_values' d_vars').addrs, start ≤ a ∧ a < l := by
        intro a mem
        rcases List.mem_cons.mp mem with rfl | mem
        · exact ⟨Nat.le_refl _, Nat.lt_of_lt_of_le low high⟩
        · rcases List.mem_append.mp mem with mem | mem
          · exact copies_addrs copies' a mem
          · exact rows_addrs rowCopies' a mem
      exact ⟨like, own, .cons ⟨like, own⟩ (List.rel_append (copies_sequences copies') (rows_sequences rowCopies'))⟩
  | group addr send_p d_vars d_groups =>
      have parts : ∀ a ∈ Variable.addrsIn d_vars, a ∈ addrs := fun a mem =>
        inside a (List.mem_cons_of_mem _ (List.mem_append_left _ mem))
      have groups : ∀ a ∈ Variable.addrsIn d_groups, a ∈ addrs := fun a mem =>
        inside a (List.mem_cons_of_mem _ (List.mem_append_right _ mem))
      rw [Variable.ptr_duplicate, Variable.duplicate]
      apply allots_bind (allots_copy (inside addr List.mem_cons_self))
      rintro _ start - ⟨rfl, rfl⟩
      apply allots_bind (allots_ptr_duplicate_vars d_vars parts _)
      intro m d_vars' low copies
      apply allots_bind (allots_ptr_duplicate_vars d_groups groups m)
      intro l d_groups' high groupCopies
      apply allots_pure
      have copies' := widen_all copies (Nat.le_succ start) high
      have groupCopies' := widen_all groupCopies (Nat.le_trans (Nat.le_succ start) low) (Nat.le_refl l)
      refine ⟨⟨rfl, rfl, rfl, rfl⟩, ?_, List.rel_append (copies_sequences copies') (copies_sequences groupCopies')⟩
      intro a mem
      rcases List.mem_cons.mp mem with rfl | mem
      · exact ⟨Nat.le_refl _, Nat.lt_of_lt_of_le low high⟩
      · rcases List.mem_append.mp mem with mem | mem
        · exact copies_addrs copies' a mem
        · exact copies_addrs groupCopies' a mem

theorem allots_ptr_duplicate_vars (vs : List (Variable V)) (inside : ∀ a ∈ Variable.addrsIn vs, a ∈ addrs) (n : Nat) :
    Allots n addrs (fun m vs' => List.Forall₂ (CopyOf leftFirst d4_ops n m) vs vs') (Variable.ptr_duplicate_vars vs) := by
  cases vs with
  | nil => exact allots_pure .nil
  | cons v vs =>
      have first : ∀ a ∈ v.addrs, a ∈ addrs := fun a mem => inside a (List.mem_append_left _ mem)
      have rest : ∀ a ∈ Variable.addrsIn vs, a ∈ addrs := fun a mem => inside a (List.mem_append_right _ mem)
      rw [Variable.ptr_duplicate_vars]
      apply allots_bind (allots_ptr_duplicate v first n)
      intro m v' low copy
      apply allots_bind (allots_ptr_duplicate_vars vs rest m)
      intro l vs' high copies
      apply allots_pure
      exact .cons (copy.widen (Nat.le_refl n) high) (widen_all copies low (Nat.le_refl l))

theorem allots_ptr_duplicate_rows (rows : List (List (Variable V))) (inside : ∀ a ∈ Variable.addrsRows rows, a ∈ addrs)
    (n : Nat) : Allots n addrs (fun m rows' => List.Forall₂ (List.Forall₂ (CopyOf leftFirst d4_ops n m)) rows rows')
      (Variable.ptr_duplicate_rows rows) := by
  cases rows with
  | nil => exact allots_pure .nil
  | cons row rows =>
      have first : ∀ a ∈ Variable.addrsIn row, a ∈ addrs := fun a mem => inside a (List.mem_append_left _ mem)
      have rest : ∀ a ∈ Variable.addrsRows rows, a ∈ addrs := fun a mem => inside a (List.mem_append_right _ mem)
      rw [Variable.ptr_duplicate_rows]
      apply allots_bind (allots_ptr_duplicate_vars row first n)
      intro m row' low copies
      apply allots_bind (allots_ptr_duplicate_rows rows rest m)
      intro l rows' high rowCopies
      apply allots_pure
      exact .cons (widen_all copies (Nat.le_refl n) high) (widen_rows rowCopies low (Nat.le_refl l))

end

end

end

end Libdap.Dap4.Filtered
