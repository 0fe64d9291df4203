import Libdap.Dap4.FilterIsolation

/-! # Rows that are read into a copy

While rows are read a Sequence looks at its own variables, at those that are made for the rows, and at those that
the clauses name. A copy has the pointers of the original: as soon as a clause is reached that names a variable,
reading looks at the original.
-/

namespace Libdap.Dap4.Filtered

open CellProgram D4Sequence

section

variable {V : Type} {leftFirst : Bool} {d4_ops : V → V → ops → Except Failure Bool} {handler : Handler V} {n : Nat}
  {filter : Bool}

mutual

theorem members_addrs (v : Variable V) : ∀ a ∈ v.members, a ∈ v.addrs := by
  intro a mem
  cases v with
  | simple addr send_p => exact mem
  | array addr send_p d_proto d_compound_buf =>
      rcases List.mem_cons.mp mem with rfl | mem
      · exact List.mem_cons_self
      · rcases List.mem_append.mp mem with mem | mem
        · exact List.mem_cons_of_mem _ (List.mem_append_left _ (members_addrs d_proto a mem))
        · exact List.mem_cons_of_mem _ (List.mem_append_right _ (membersIn_addrs d_compound_buf a mem))
  | struct addr send_p d_vars =>
      rcases List.mem_cons.mp mem with rfl | mem
      · exact List.mem_cons_self
      · exact List.mem_cons_of_mem _ (membersIn_addrs d_vars a mem)
  | sequence addr send_p fields d_values d_vars =>
      rcases List.mem_cons.mp mem with rfl | mem
      · exact List.mem_cons_self
      · exact List.mem_cons_of_mem _ (List.mem_append_left _ (membersIn_addrs d_vars a mem))
  | group addr send_p d_vars d_groups =>
      rcases List.mem_cons.mp mem with rfl | mem
      · exact List.mem_cons_self
      · rcases List.mem_append.mp mem with mem | mem
        · exact List.mem_cons_of_mem _ (List.mem_append_left _ (membersIn_addrs d_vars a mem))
        · exact List.mem_cons_of_mem _ (List.mem_append_right _ (membersIn_addrs d_groups a mem))

theorem membersIn_addrs (vs : List (Variable V)) : ∀ a ∈ Variable.membersIn vs, a ∈ Variable.addrsIn vs := by
  intro a mem
  cases vs with
  | nil => cases mem
  | cons v vs =>
      rcases List.mem_append.mp mem with mem | mem
      · exact List.mem_append_left _ (members_addrs v a mem)
      · exact List.mem_append_right _ (membersIn_addrs vs a mem)

end

theorem reachesIn_of_mem {vs : List (Variable V)} {v : Variable V} (mem : v ∈ vs) (sent : v.send_p = true)
    (reaches : v.reaches leftFirst d4_ops = true) : Variable.reachesIn leftFirst d4_ops vs = true := by
  induction mem with
  | head vs => rw [Variable.reachesIn, sent, reaches, Bool.and_self, Bool.true_or]
  | tail w _ ih => rw [Variable.reachesIn, ih, Bool.or_true]

theorem pointersIn_of_mem {vs : List (Variable V)} {v : Variable V} (mem : v ∈ vs) :
    ∀ p ∈ v.pointers, p ∈ Variable.pointersIn vs := by
  induction mem with
  | head vs => exact fun p here => List.mem_append_left _ here
  | tail w _ ih => exact fun p here => List.mem_append_right _ (ih p here)

/-! ## A row -/

/-- The pointers that are followed lead beyond an address. -/
def Follows (n : Nat) (filter reaches : Bool) (pointers : List Pointer) : Prop :=
  filter = true → reaches = true → ∀ p ∈ pointers, ∀ a ∈ p.addrs, n ≤ a

theorem beyond_keeps {fields : Fields V} (follows : Follows n filter (fields.reaches leftFirst d4_ops) fields.pointers) :
    Beyond n (keeps leftFirst d4_ops handler filter fields.d_clauses)
      fun holds => holds = true → filter = true → fields.mayKeep leftFirst d4_ops = true := by
  unfold Follows Fields.reaches Fields.pointers at follows
  unfold Fields.mayKeep
  cases filter with
  | false =>
      apply beyond_pure
      intro _ on
      cases on
  | true =>
      cases clauses : fields.d_clauses with
      | none => exact beyond_pure fun _ _ => rfl
      | some cs =>
          rw [clauses] at follows
          cases constant : D4FilterClauseList.constantly leftFirst d4_ops cs with
          | none =>
              have beyond := follows rfl (by simp [constant])
              apply (beyond_list ?_).mono
              · intro _ _ _ _
                simp only [constant]
              · intro c mem p here
                exact beyond p (List.mem_flatMap.mpr ⟨c, mem, here⟩)
          | some r =>
              rw [keeps, list_value_eq constant]
              apply beyond_returned
              rintro holds rfl kept -
              simp only [constant, kept]

/-- `read_next_instance` changes no field but the length. -/
theorem beyond_next {this : Variable V} (own : ∀ a ∈ this.members, n ≤ a) (fuel : Nat) {fields : Fields V}
    (follows : Follows n filter (fields.reaches leftFirst d4_ops) fields.pointers) :
    Beyond n (read_next_instance leftFirst d4_ops handler filter this fuel fields) fun read =>
      (∃ k, read.2 = { fields with d_length := k }) ∧
        (read.1 = true → filter = true → fields.mayKeep leftFirst d4_ops = true) := by
  induction fuel generalizing fields with
  | zero => exact beyond_throw _
  | succ fuel ih =>
      rw [read_next_instance]
      apply beyond_bind (beyond_call (handler.readRow_own this) own)
      intro eof _
      cases eof with
      | true => exact beyond_pure ⟨⟨fields.d_length, rfl⟩, by simp⟩
      | false =>
          apply beyond_bind (beyond_keeps follows)
          intro done kept
          apply beyond_bind (beyond_change own)
          intro _ _
          cases done with
          | true => exact beyond_pure ⟨⟨_, rfl⟩, fun _ => kept rfl⟩
          | false => exact ih follows

theorem addrs_set_copy_clauses (state : Bool) (v : Variable V) : (set_copy_clauses state v).addrs = v.addrs := by
  cases v <;> rfl

theorem like_set_copy_clauses (state : Bool) (v : Variable V) : Like leftFirst d4_ops v (set_copy_clauses state v) := by
  cases v <;> exact ⟨rfl, rfl, rfl, rfl⟩

theorem Like.trans {v v' v'' : Variable V} (first : Like leftFirst d4_ops v v') (then_ : Like leftFirst d4_ops v' v'') :
    Like leftFirst d4_ops v v'' where
  send_p := then_.send_p.trans first.send_p
  clauses := then_.clauses.trans first.clauses
  reaches := then_.reaches.trans first.reaches
  pointers := then_.pointers.trans first.pointers

/-- What is read into a variable leaves it alike, in cells beyond an address. -/
def Read (leftFirst : Bool) (d4_ops : V → V → ops → Except Failure Bool) (n : Nat) (v v' : Variable V) : Prop :=
  Like leftFirst d4_ops v v' ∧ ∀ a ∈ v'.addrs, n ≤ a

/-- The same of the variables of a Sequence. -/
def ReadIn (leftFirst : Bool) (d4_ops : V → V → ops → Except Failure Bool) (n : Nat) (vs vs' : List (Variable V)) : Prop :=
  (Variable.reachesIn leftFirst d4_ops vs' = Variable.reachesIn leftFirst d4_ops vs ∧
    Variable.pointersIn vs' = Variable.pointersIn vs) ∧ ∀ a ∈ Variable.addrsIn vs', n ≤ a

variable {child : Variable V → Program V (Variable V)}

theorem beyond_add_row (reads : ∀ v : Variable V, (∀ a ∈ v.addrs, n ≤ a) →
      Follows n filter (v.reaches leftFirst d4_ops) v.pointers → Beyond n (child v) (Read leftFirst d4_ops n v))
    (vs : List (Variable V)) (own : ∀ a ∈ Variable.addrsIn vs, n ≤ a)
    (follows : ∀ v ∈ vs, v.send_p = true → Follows n filter (v.reaches leftFirst d4_ops) v.pointers) :
    Beyond n (add_row child vs) fun both => ReadIn leftFirst d4_ops n vs both.1 ∧ ∀ a ∈ Variable.addrsIn both.2, n ≤ a := by
  induction vs with
  | nil => exact beyond_pure ⟨⟨⟨rfl, rfl⟩, own⟩, own⟩
  | cons v vs ih =>
      have first : ∀ a ∈ v.addrs, n ≤ a := fun a mem => own a (List.mem_append_left _ mem)
      have rest := ih (fun a mem => own a (List.mem_append_right _ mem)) fun v mem => follows v (List.mem_cons_of_mem _ mem)
      rw [add_row]
      cases sent : v.send_p with
      | false =>
          apply beyond_bind rest
          rintro ⟨vs', row⟩ ⟨⟨same, own'⟩, values⟩
          apply beyond_pure
          refine ⟨⟨?_, ?_⟩, values⟩
          · simp only [Variable.reachesIn, Variable.pointersIn, same, and_self]
          · intro a mem
            rcases List.mem_append.mp mem with mem | mem
            · exact first a mem
            · exact own' a mem
      | true =>
          apply beyond_bind (reads v first (follows v List.mem_cons_self sent))
          rintro v' ⟨like, own'⟩
          have source : ∀ a ∈ (set_copy_clauses false v').addrs, n ≤ a := by
            rw [addrs_set_copy_clauses]
            exact own'
          have copied : Beyond n (set_copy_clauses false v').ptr_duplicate fun value => ∀ a ∈ value.addrs, n ≤ a := by
            have allots (m : Nat) : Allots m _ (fun l value => CopyOf leftFirst d4_ops m l _ value) _ :=
              allots_ptr_duplicate (set_copy_clauses false v') (fun _ mem => mem) m
            apply Allots.beyond allots source
            intro m l value new copy a mem
            exact Nat.le_trans new (copy.addrs a mem).1
          apply beyond_bind copied
          intro value new
          apply beyond_bind (beyond_change fun a mem => new a (members_addrs value a mem))
          intro _ _
          apply beyond_bind rest
          rintro ⟨vs', row⟩ ⟨⟨same, own''⟩, values⟩
          apply beyond_pure
          have like' := like.trans (like_set_copy_clauses true v')
          refine ⟨⟨?_, ?_⟩, ?_⟩
          · simp only [Variable.reachesIn, Variable.pointersIn, same, like'.send_p, like'.reaches, like'.pointers, and_self]
          · intro a mem
            rcases List.mem_append.mp mem with mem | mem
            · rw [addrs_set_copy_clauses] at mem
              exact own' a mem
            · exact own'' a mem
          · intro a mem
            rcases List.mem_append.mp mem with mem | mem
            · exact new a mem
            · exact values a mem

/-! ## Rows -/

variable {addr fuel : Nat} {send_p : Bool} {fields : Fields V} {d_values : List (List (Variable V))}
  {d_vars : List (Variable V)}

theorem addrsRows_append (rows : List (List (Variable V))) (row : List (Variable V)) :
    Variable.addrsRows (rows ++ [row]) = Variable.addrsRows rows ++ Variable.addrsIn row := by
  induction rows with
  | nil => simp [Variable.addrsRows]
  | cons r rows ih => rw [List.cons_append, Variable.addrsRows, ih, Variable.addrsRows, List.append_assoc]

/-- A Sequence reads its own cells, and follows the pointers of its clauses and of the Sequences in it. -/
structure Confined (leftFirst : Bool) (d4_ops : V → V → ops → Except Failure Bool) (n : Nat) (filter : Bool) (addr : Nat)
    (fields : Fields V) (d_values : List (List (Variable V))) (d_vars : List (Variable V)) : Prop where
  addr : n ≤ addr
  vars : ∀ a ∈ Variable.addrsIn d_vars, n ≤ a
  rows : ∀ a ∈ Variable.addrsRows d_values, n ≤ a
  own : Follows n filter (fields.reaches leftFirst d4_ops) fields.pointers
  children : fields.mayKeep leftFirst d4_ops = true →
    Follows n filter (Variable.reachesIn leftFirst d4_ops d_vars) (Variable.pointersIn d_vars)

theorem beyond_read_rows (reads : ∀ v : Variable V, (∀ a ∈ v.addrs, n ≤ a) →
      Follows n filter (v.reaches leftFirst d4_ops) v.pointers → Beyond n (child v) (Read leftFirst d4_ops n v))
    (confined : Confined leftFirst d4_ops n filter addr fields d_values d_vars) :
    Beyond n (read_rows leftFirst d4_ops handler child filter addr send_p fuel fields d_values d_vars) fun all =>
      (∃ k, all.1 = { fields with d_length := k }) ∧ (∀ a ∈ Variable.addrsRows all.2.1, n ≤ a) ∧
        ReadIn leftFirst d4_ops n d_vars all.2.2 := by
  induction fuel generalizing fields d_values d_vars with
  | zero => exact beyond_throw _
  | succ fuel ih =>
      have own : ∀ a ∈ (Variable.sequence addr send_p fields d_values d_vars).members, n ≤ a := by
        intro a mem
        rcases List.mem_cons.mp mem with rfl | mem
        · exact confined.addr
        · exact confined.vars a (membersIn_addrs d_vars a mem)
      rw [read_rows]
      apply beyond_bind (beyond_next own (fuel + 1) confined.own)
      rintro ⟨more, fields'⟩ ⟨⟨k, rfl⟩, kept⟩
      cases more with
      | false => exact beyond_pure ⟨⟨k, rfl⟩, confined.rows, ⟨rfl, rfl⟩, confined.vars⟩
      | true =>
          have follows : ∀ v ∈ d_vars, v.send_p = true → Follows n filter (v.reaches leftFirst d4_ops) v.pointers := by
            intro v mem sent on reaches p here
            exact confined.children (kept rfl on) on (reachesIn_of_mem mem sent reaches) p (pointersIn_of_mem mem p here)
          apply beyond_bind (beyond_add_row reads d_vars confined.vars follows)
          rintro ⟨d_vars', row⟩ ⟨⟨⟨reaches, pointers⟩, vars⟩, values⟩
          have confined' : Confined leftFirst d4_ops n filter addr { fields with d_length := k } (d_values ++ [row]) d_vars' := by
            refine ⟨confined.addr, vars, ?_, confined.own, ?_⟩
            · rw [addrsRows_append]
              intro a mem
              rcases List.mem_append.mp mem with mem | mem
              · exact confined.rows a mem
              · exact values a mem
            · rw [reaches, pointers]
              exact confined.children
          apply (ih confined').mono
          rintro ⟨fields', d_values', d_vars''⟩ ⟨⟨l, rfl⟩, rows, ⟨reaches', pointers'⟩, vars'⟩
          exact ⟨⟨l, rfl⟩, rows, ⟨reaches'.trans reaches, pointers'.trans pointers⟩, vars'⟩

variable (handler) in
/-- Reading rows looks beyond an address where the variable is and the pointers lead that are followed. -/
theorem beyond_read_sequence_values (fuel : Nat) (v : Variable V) (own : ∀ a ∈ v.addrs, n ≤ a)
    (follows : Follows n filter (v.reaches leftFirst d4_ops) v.pointers) :
    Beyond n (read_sequence_values leftFirst d4_ops handler filter fuel v) (Read leftFirst d4_ops n v) := by
  induction fuel generalizing v with
  | zero =>
      cases v with
      | sequence => exact beyond_throw _
      | simple | array | struct | group => exact beyond_pure ⟨⟨rfl, rfl, rfl, rfl⟩, own⟩
  | succ fuel ih =>
      cases v with
      | sequence addr send_p fields d_values d_vars =>
          have confined : Confined leftFirst d4_ops n filter addr fields d_values d_vars := by
            refine ⟨own addr List.mem_cons_self, ?_, ?_, ?_, ?_⟩
            · exact fun a mem => own a (List.mem_cons_of_mem _ (List.mem_append_left _ mem))
            · exact fun a mem => own a (List.mem_cons_of_mem _ (List.mem_append_right _ mem))
            · intro on reaches p mem
              apply follows on _ p (List.mem_append_left _ mem)
              rw [Variable.reaches, reaches, Bool.true_or]
            · intro kept on reaches p mem
              apply follows on _ p (List.mem_append_right _ mem)
              rw [Variable.reaches, kept, reaches, Bool.and_self, Bool.or_true]
          rw [read_sequence_values]
          apply beyond_bind (beyond_fetch confined.addr)
          intro this _
          cases this.d_is_read with
          | true => exact beyond_pure ⟨⟨rfl, rfl, rfl, rfl⟩, own⟩
          | false =>
              apply beyond_bind (beyond_read_rows ih confined)
              rintro ⟨fields', d_values', d_vars'⟩ ⟨⟨k, rfl⟩, rows, ⟨reaches, pointers⟩, vars⟩
              apply beyond_pure
              refine ⟨⟨rfl, rfl, ?_, ?_⟩, ?_⟩
              · rw [Variable.reaches, Variable.reaches, reaches]
                rfl
              · rw [Variable.pointers, Variable.pointers, pointers]
                rfl
              · intro a mem
                rcases List.mem_cons.mp mem with rfl | mem
                · exact confined.addr
                · rcases List.mem_append.mp mem with mem | mem
                  · exact vars a mem
                  · exact rows a mem
      | simple | array | struct | group => exact beyond_pure ⟨⟨rfl, rfl, rfl, rfl⟩, own⟩

end

/-! ## Rows that lead to a pointer -/

section

variable {V : Type} (leftFirst : Bool) (d4_ops : V → V → ops → Except Failure Bool)

/-- A server with a row for each Sequence in which one leads to a pointer, and with none for the others. -/
def leading : Handler V where
  read _ cells := (.ok true, cells)
  read_own _ _ _ _ := rfl
  readRow v cells := (.ok !v.reaches leftFirst d4_ops, cells)
  readRow_own _ _ _ _ := rfl

/-- The cells are there, and their flags are not set. -/
def Unread (s : CellStore (Cell V)) (addrs : List Nat) : Prop := ∀ a ∈ addrs, a < s.next ∧ (s.cells a).d_is_read = false

end

section

variable {V : Type} {leftFirst : Bool} {d4_ops : V → V → ops → Except Failure Bool} {s : CellStore (Cell V)}

theorem follows_zero (filter reaches : Bool) (pointers : List Pointer) : Follows 0 filter reaches pointers :=
  fun _ _ _ _ _ _ => Nat.zero_le _

theorem grows_add_row (handler : Handler V) (fuel : Nat) (vs : List (Variable V)) :
    Beyond 0 (add_row (read_sequence_values leftFirst d4_ops handler true fuel) vs) fun _ => True := by
  have reads (v : Variable V) (own : ∀ a ∈ v.addrs, 0 ≤ a) (follows : Follows 0 true (v.reaches leftFirst d4_ops) v.pointers) :=
    beyond_read_sequence_values handler fuel v own follows
  exact (beyond_add_row reads vs (fun _ _ => Nat.zero_le _) fun v _ _ => follows_zero true _ v.pointers).mono fun _ _ => trivial

theorem grows_read_rows (handler : Handler V) (deep fuel addr : Nat) (send_p : Bool) (fields : Fields V)
    (d_values : List (List (Variable V))) (d_vars : List (Variable V)) :
    Beyond 0 (read_rows leftFirst d4_ops handler (read_sequence_values leftFirst d4_ops handler true deep) true addr send_p
      fuel fields d_values d_vars) fun _ => True := by
  have reads (v : Variable V) (own : ∀ a ∈ v.addrs, 0 ≤ a) (follows : Follows 0 true (v.reaches leftFirst d4_ops) v.pointers) :=
    beyond_read_sequence_values handler deep v own follows
  have confined : Confined leftFirst d4_ops 0 true addr fields d_values d_vars :=
    ⟨Nat.zero_le _, fun _ _ => Nat.zero_le _, fun _ _ => Nat.zero_le _, follows_zero _ _ _, fun _ => follows_zero _ _ _⟩
  exact (beyond_read_rows reads confined).mono fun _ _ => trivial

variable {addr : Nat} {send_p : Bool} {fields : Fields V} {d_values : List (List (Variable V))} {d_vars : List (Variable V)}

theorem leading_row (leftFirst : Bool) (d4_ops : V → V → ops → Except Failure Bool) (v : Variable V)
    (s : CellStore (Cell V)) : ∃ s', call v.members ((leading leftFirst d4_ops).readRow v) s =
      .ok (!v.reaches leftFirst d4_ops) s' ∧ s'.next = s.next ∧ s'.cells = s.cells := ⟨_, rfl, rfl, rfl⟩

/-- The row of a Sequence that leads to nothing is the end of it. -/
theorem skips {v : Variable V} (nothing : v.reaches leftFirst d4_ops = false) (unread : Unread s v.addrs) (fuel : Nat) :
    ∃ v' s', read_sequence_values leftFirst d4_ops (leading leftFirst d4_ops) true (fuel + 1) v s = .ok v' s' ∧
      s'.next = s.next ∧ s'.cells = s.cells := by
  cases v with
  | sequence addr send_p fields d_values d_vars =>
      obtain ⟨s₁, fetched, next₁, cells₁⟩ : ∃ s₁, (fetch addr : Program V (Cell V)) s = .ok (s.cells addr) s₁ ∧
        s₁.next = s.next ∧ s₁.cells = s.cells := ⟨_, rfl, rfl, rfl⟩
      have flag := (unread addr List.mem_cons_self).2
      obtain ⟨s₂, ended, next₂, cells₂⟩ := leading_row leftFirst d4_ops
        (.sequence addr send_p fields d_values d_vars) s₁
      rw [nothing] at ended
      have next : read_next_instance leftFirst d4_ops (leading leftFirst d4_ops) true
          (.sequence addr send_p fields d_values d_vars) (fuel + 1) fields s₁ = .ok (false, fields) s₂ := by
        rw [read_next_instance, bind_of_ok ended]
        rfl
      have rows : read_rows leftFirst d4_ops (leading leftFirst d4_ops)
          (read_sequence_values leftFirst d4_ops (leading leftFirst d4_ops) true fuel) true addr send_p (fuel + 1) fields
          d_values d_vars s₁ = .ok (fields, d_values, d_vars) s₂ := by
        rw [read_rows, bind_of_ok next]
        rfl
      refine ⟨.sequence addr send_p { fields with d_length := d_values.length } d_values d_vars, s₂, ?_,
        next₂.trans next₁, cells₂.trans cells₁⟩
      rw [read_sequence_values, bind_of_ok fetched, flag, if_neg Bool.false_ne_true, bind_of_ok rows]
      rfl
  | simple | array | struct | group => exact ⟨_, s, rfl, rfl, rfl⟩

/-- A list of clauses that is always true lets a row through. -/
theorem keeps_always (handler : Handler V) (nothing : fields.reaches leftFirst d4_ops = false)
    (kept : fields.mayKeep leftFirst d4_ops = true) :
    keeps leftFirst d4_ops handler true fields.d_clauses = pure true := by
  unfold Fields.reaches at nothing
  unfold Fields.mayKeep at kept
  cases clauses : fields.d_clauses with
  | none => rfl
  | some cs =>
      rw [clauses] at nothing kept
      cases constant : D4FilterClauseList.constantly leftFirst d4_ops cs with
      | none => simp [constant] at nothing
      | some r =>
          simp only [constant] at kept
          rw [keeps, list_value_eq constant]
          cases r with
          | error e => cases kept
          | ok holds =>
              obtain rfl : holds = true := kept
              rfl

theorem Unread.mono {addrs addrs' : List Nat} (unread : Unread s addrs) (fewer : ∀ a ∈ addrs', a ∈ addrs) :
    Unread s addrs' := fun a mem => unread a (fewer a mem)

/-- Behind a variable that leads to nothing, or is not sent, the others are still unread. -/
theorem add_row_behind {v : Variable V} {vs : List (Variable V)} (nothing : v.send_p = true → v.reaches leftFirst d4_ops = false)
    (unread : Unread s (Variable.addrsIn (v :: vs))) (fuel : Nat) : ∃ s', Unread s' (Variable.addrsIn vs) ∧
      ∀ a ∈ ((add_row (read_sequence_values leftFirst d4_ops (leading leftFirst d4_ops) true (fuel + 1)) vs).final s').touched,
        a ∈ ((add_row (read_sequence_values leftFirst d4_ops (leading leftFirst d4_ops) true (fuel + 1)) (v :: vs)).final s).touched := by
  have first : Unread s v.addrs := unread.mono fun _ mem => List.mem_append_left _ mem
  have rest : Unread s (Variable.addrsIn vs) := unread.mono fun _ mem => List.mem_append_right _ mem
  rw [add_row]
  cases sent : v.send_p with
  | false => exact ⟨s, rest, fun a touched => touched_of_bind touched fun _ => beyond_pure trivial⟩
  | true =>
      obtain ⟨v', s₁, read, next₁, cells₁⟩ := skips (nothing sent) first fuel
      have allots : Allots s₁.next _ (fun l value => CopyOf leftFirst d4_ops s₁.next l _ value) _ :=
        allots_ptr_duplicate (set_copy_clauses false v') (fun _ mem => mem) s₁.next
      obtain ⟨value, s₂, copied, copy, next₂, cells₂, -⟩ := allots s₁ rfl
      obtain ⟨s₃, set, next₃, cells₃⟩ : ∃ s₃, set_read_p value.members true s₂ = .ok () s₃ ∧ s₃.next = s₂.next ∧
        s₃.cells = fun b => if b ∈ value.members then { s₂.cells b with d_is_read := true } else s₂.cells b :=
        ⟨_, rfl, rfl, rfl⟩
      have unread₃ : Unread s₃ (Variable.addrsIn vs) := by
        intro b mem
        obtain ⟨there, flag⟩ := rest b mem
        have old : b < s₁.next := next₁ ▸ there
        have other : b ∉ value.members := by
          intro here
          have new := (copy.addrs b (members_addrs value b here)).1
          exact absurd old (Nat.not_lt.mpr new)
        refine ⟨?_, ?_⟩
        · rw [next₃]
          exact Nat.lt_of_lt_of_le old next₂
        · rw [cells₃]
          simp only [if_neg other, cells₂ b old, cells₁, flag]
      refine ⟨s₃, unread₃, fun a touched => ?_⟩
      rw [if_pos rfl, final_bind_of_ok read, final_bind_of_ok copied, final_bind_of_ok set]
      exact touched_of_bind touched fun _ => beyond_pure trivial

theorem grows_ptr_duplicate (v : Variable V) : Beyond 0 v.ptr_duplicate fun _ => True := by
  have allots (m : Nat) : Allots m v.addrs (fun l value => CopyOf false (fun _ _ _ => .ok true) m l v value) v.ptr_duplicate :=
    allots_ptr_duplicate v (fun _ mem => mem) m
  exact Allots.beyond allots (fun _ _ => Nat.zero_le _) fun _ _ _ _ _ => trivial

/-- Before the loop the flag is looked at. -/
theorem touched_of_rows (fuel : Nat) (unread : Unread s (Variable.sequence addr send_p fields d_values d_vars).addrs) :
    ∃ s₁, s₁.next = s.next ∧ s₁.cells = s.cells ∧
      ∀ a ∈ ((read_rows leftFirst d4_ops (leading leftFirst d4_ops)
          (read_sequence_values leftFirst d4_ops (leading leftFirst d4_ops) true fuel) true addr send_p (fuel + 1) fields
          d_values d_vars).final s₁).touched,
        a ∈ ((read_sequence_values leftFirst d4_ops (leading leftFirst d4_ops) true (fuel + 1)
          (.sequence addr send_p fields d_values d_vars)).final s).touched := by
  obtain ⟨s₁, fetched, next₁, cells₁⟩ : ∃ s₁, (fetch addr : Program V (Cell V)) s = .ok (s.cells addr) s₁ ∧
    s₁.next = s.next ∧ s₁.cells = s.cells := ⟨_, rfl, rfl, rfl⟩
  have flag := (unread addr List.mem_cons_self).2
  refine ⟨s₁, next₁, cells₁, fun a touched => ?_⟩
  rw [read_sequence_values, final_bind_of_ok fetched, flag, if_neg Bool.false_ne_true]
  exact touched_of_bind touched fun _ => beyond_pure trivial

/-- A clause of the Sequence itself leads to a pointer for the first row. -/
theorem leads_own (own : fields.reaches leftFirst d4_ops = true)
    (unread : Unread s (Variable.sequence addr send_p fields d_values d_vars).addrs) (fuel : Nat) :
    ∃ p ∈ fields.pointers, p.addr ∈ ((read_sequence_values leftFirst d4_ops (leading leftFirst d4_ops) true (fuel + 1)
      (.sequence addr send_p fields d_values d_vars)).final s).touched := by
  have reached : (Variable.sequence addr send_p fields d_values d_vars).reaches leftFirst d4_ops = true := by
    rw [Variable.reaches, own, Bool.true_or]
  obtain ⟨s₁, -, -, up⟩ := touched_of_rows fuel unread
  obtain ⟨s₂, row, -, -⟩ := leading_row leftFirst d4_ops (.sequence addr send_p fields d_values d_vars) s₁
  rw [reached] at row
  unfold Fields.reaches at own
  unfold Fields.pointers
  cases clauses : fields.d_clauses with
  | none =>
      rw [clauses] at own
      cases own
  | some cs =>
      rw [clauses] at own
      obtain ⟨p, mem, touched⟩ := list_looks (leading leftFirst d4_ops) (Option.isNone_iff_eq_none.mp own) s₂
      refine ⟨p, mem, up p.addr ?_⟩
      rw [read_rows]
      apply touched_of_bind
      · rw [read_next_instance, final_bind_of_ok row, clauses]
        apply touched_of_bind touched
        intro done
        apply beyond_bind (beyond_change fun _ _ => Nat.zero_le _)
        intro _ _
        cases done with
        | true => exact beyond_pure trivial
        | false => exact (beyond_next (fun _ _ => Nat.zero_le _) fuel (follows_zero _ _ _)).mono fun _ _ => trivial
      · rintro ⟨more, fields'⟩
        cases more with
        | true =>
            apply beyond_bind (grows_add_row _ fuel d_vars)
            intro both _
            exact grows_read_rows _ fuel fuel addr send_p fields' _ _
        | false => exact beyond_pure trivial

/-- Clauses that are always true let a row through, for which the variables are looked at one by one. -/
theorem leads_to_row (nothing : fields.reaches leftFirst d4_ops = false) (kept : fields.mayKeep leftFirst d4_ops = true)
    (children : Variable.reachesIn leftFirst d4_ops d_vars = true)
    (unread : Unread s (Variable.sequence addr send_p fields d_values d_vars).addrs) (fuel : Nat) :
    ∃ s', Unread s' (Variable.addrsIn d_vars) ∧
      ∀ a ∈ ((add_row (read_sequence_values leftFirst d4_ops (leading leftFirst d4_ops) true fuel) d_vars).final s').touched,
        a ∈ ((read_sequence_values leftFirst d4_ops (leading leftFirst d4_ops) true (fuel + 1)
          (.sequence addr send_p fields d_values d_vars)).final s).touched := by
  have reached : (Variable.sequence addr send_p fields d_values d_vars).reaches leftFirst d4_ops = true := by
    rw [Variable.reaches, kept, children, Bool.and_self, Bool.or_true]
  obtain ⟨s₁, next₁, cells₁, up⟩ := touched_of_rows fuel unread
  obtain ⟨s₂, row, next₂, cells₂⟩ := leading_row leftFirst d4_ops (.sequence addr send_p fields d_values d_vars) s₁
  rw [reached] at row
  obtain ⟨s₃, set, next₃, cells₃⟩ : ∃ s₃, set_read_p (Variable.sequence addr send_p fields d_values d_vars).members false s₂ =
      .ok () s₃ ∧ s₃.next = s₂.next ∧ s₃.cells = fun b =>
        if b ∈ (Variable.sequence addr send_p fields d_values d_vars).members then { s₂.cells b with d_is_read := false }
        else s₂.cells b := ⟨_, rfl, rfl, rfl⟩
  have next : read_next_instance leftFirst d4_ops (leading leftFirst d4_ops) true
      (.sequence addr send_p fields d_values d_vars) (fuel + 1) fields s₁ =
        .ok (true, { fields with d_length := fields.d_length + 1 }) s₃ := by
    rw [read_next_instance, bind_of_ok row, keeps_always _ nothing kept, if_neg (by decide), start_bind, bind_of_ok set]
    rfl
  refine ⟨s₃, ?_, fun a touched => up a ?_⟩
  · intro a mem
    obtain ⟨there, flag⟩ := unread a (List.mem_cons_of_mem _ (List.mem_append_left _ mem))
    refine ⟨?_, ?_⟩
    · rw [next₃, next₂, next₁]
      exact there
    · rw [cells₃, cells₂, cells₁]
      simp only
      split
      · rfl
      · exact flag
  · rw [read_rows, final_bind_of_ok next]
    apply touched_of_bind touched
    intro both
    exact grows_read_rows _ fuel fuel addr send_p _ _ _

mutual

/-- With enough rounds reading comes to a pointer. -/
theorem leads (v : Variable V) (reaches : v.reaches leftFirst d4_ops = true) : ∃ rounds, ∀ fuel, rounds ≤ fuel →
    ∀ s : CellStore (Cell V), Unread s v.addrs → ∃ p ∈ v.pointers, p.addr ∈
      ((read_sequence_values leftFirst d4_ops (leading leftFirst d4_ops) true fuel v).final s).touched := by
  cases v with
  | sequence addr send_p fields d_values d_vars =>
      rw [Variable.reaches, Bool.or_eq_true, Bool.and_eq_true] at reaches
      by_cases own : fields.reaches leftFirst d4_ops = true
      · refine ⟨1, fun fuel enough s unread => ?_⟩
        obtain ⟨fuel, rfl⟩ := Nat.exists_eq_add_of_le' enough
        obtain ⟨p, mem, touched⟩ := leads_own own unread fuel
        exact ⟨p, List.mem_append_left _ mem, touched⟩
      · obtain ⟨kept, children⟩ := reaches.resolve_left own
        obtain ⟨rounds, comes⟩ := leads_in d_vars children
        refine ⟨rounds + 1, fun fuel enough s unread => ?_⟩
        obtain ⟨fuel, rfl⟩ := Nat.exists_eq_add_of_le' (Nat.le_trans (Nat.le_add_left 1 rounds) enough)
        obtain ⟨s', unread', kept⟩ := leads_to_row (Bool.eq_false_iff.mpr own) kept children unread fuel
        obtain ⟨p, mem, touched⟩ := comes fuel (Nat.le_of_succ_le_succ enough) s' unread'
        exact ⟨p, List.mem_append_right _ mem, kept p.addr touched⟩
  | simple | array | struct | group => cases reaches

theorem leads_in (vs : List (Variable V)) (reaches : Variable.reachesIn leftFirst d4_ops vs = true) :
    ∃ rounds, ∀ fuel, rounds ≤ fuel → ∀ s : CellStore (Cell V), Unread s (Variable.addrsIn vs) →
      ∃ p ∈ Variable.pointersIn vs, p.addr ∈
        ((add_row (read_sequence_values leftFirst d4_ops (leading leftFirst d4_ops) true fuel) vs).final s).touched := by
  cases vs with
  | nil => cases reaches
  | cons v vs =>
      by_cases here : v.send_p = true ∧ v.reaches leftFirst d4_ops = true
      · obtain ⟨sent, reached⟩ := here
        obtain ⟨rounds, comes⟩ := leads v reached
        refine ⟨rounds, fun fuel enough s unread => ?_⟩
        obtain ⟨p, mem, touched⟩ := comes fuel enough s (unread.mono fun _ mem => List.mem_append_left _ mem)
        refine ⟨p, List.mem_append_left _ mem, ?_⟩
        rw [add_row, if_pos sent]
        apply touched_of_bind touched
        intro v'
        apply beyond_bind (grows_ptr_duplicate _)
        intro value _
        apply beyond_bind (beyond_change fun _ _ => Nat.zero_le _)
        intro _ _
        apply beyond_bind (grows_add_row _ fuel vs)
        intro both _
        exact beyond_pure trivial
      · have behind : Variable.reachesIn leftFirst d4_ops vs = true := by
          rw [Variable.reachesIn, Bool.or_eq_true, Bool.and_eq_true] at reaches
          exact reaches.resolve_left here
        obtain ⟨rounds, comes⟩ := leads_in vs behind
        refine ⟨rounds + 1, fun fuel enough s unread => ?_⟩
        obtain ⟨fuel, rfl⟩ := Nat.exists_eq_add_of_le' (Nat.le_trans (Nat.le_add_left 1 rounds) enough)
        have nothing : v.send_p = true → v.reaches leftFirst d4_ops = false := by
          intro sent
          rw [Bool.eq_false_iff]
          exact fun reached => here ⟨sent, reached⟩
        obtain ⟨s', unread', kept⟩ := add_row_behind nothing unread fuel
        obtain ⟨p, mem, touched⟩ := comes (fuel + 1) (Nat.le_of_succ_le enough) s' unread'
        exact ⟨p, List.mem_append_right _ mem, kept p.addr touched⟩

end

/-! ## The copy of a Sequence -/

/-- The clauses of a Sequence that leads to nothing are constant. -/
theorem constantly_clauses {v : Variable V} (nothing : v.reaches leftFirst d4_ops = false) :
    ∃ r, D4FilterClauseList.constantly leftFirst d4_ops v.clauses = some r := by
  cases v with
  | sequence addr send_p fields d_values d_vars =>
      rw [Variable.reaches, Bool.or_eq_false_iff] at nothing
      have own := nothing.1
      unfold Fields.reaches at own
      change ∃ r, D4FilterClauseList.constantly leftFirst d4_ops (fields.d_clauses.getD []) = some r
      cases clauses : fields.d_clauses with
      | none => exact ⟨.ok true, rfl⟩
      | some cs =>
          rw [clauses] at own
          cases constant : D4FilterClauseList.constantly leftFirst d4_ops cs with
          | none => simp [constant] at own
          | some r => exact ⟨r, constant⟩
  | simple | array | struct | group => exact ⟨.ok true, rfl⟩

/-- A copy filters on its own when no clause is reached that names a variable, and only then. -/
theorem isolated_iff {original v v' : Variable V} {n m : Nat} (like : Like leftFirst d4_ops v v')
    (own : ∀ a ∈ v'.addrs, n ≤ a ∧ a < m) (new : n ≤ m) (there : ∀ a ∈ original.addrs, a < n)
    (bound : ∀ p ∈ v.pointers, p.addr ∈ original.addrs) (cells : Nat → Cell V) :
    Isolated leftFirst d4_ops original m v' ↔ v.reaches leftFirst d4_ops = false := by
  rw [← like.reaches]
  constructor
  · intro isolated
    rw [Bool.eq_false_iff]
    intro reached
    obtain ⟨rounds, comes⟩ := leads v' reached
    have unread : Unread ⟨fun a => { cells a with d_is_read := false }, m, []⟩ v'.addrs := fun a mem => ⟨(own a mem).2, rfl⟩
    obtain ⟨p, mem, touched⟩ := comes rounds (Nat.le_refl _) _ unread
    rw [like.pointers] at mem
    exact (isolated.frame (leading leftFirst d4_ops) true rounds _ (Nat.le_refl m) rfl p.addr (bound p mem)).1 touched
  · intro nothing
    constructor
    · intro handler s s' _
      obtain ⟨r, constant⟩ := constantly_clauses nothing
      rw [list_value_eq constant]
      cases r <;> rfl
    · intro handler filter fuel s later fresh a mem
      have follows : Follows n filter (v'.reaches leftFirst d4_ops) v'.pointers := by
        intro _ reached
        rw [nothing] at reached
        cases reached
      have beyond := beyond_read_sequence_values handler fuel v' (fun a mem => (own a mem).1) follows
      obtain ⟨-, same, more, touched, above⟩ := (beyond s (Nat.le_trans new later)).1
      refine ⟨?_, same a (there a mem)⟩
      rw [touched, fresh, List.nil_append]
      exact fun here => absurd (above a here) (Nat.not_le.mpr (there a mem))

/-- Every Sequence in the copy of a variable filters on its own when no clause of the original is reached, while rows
are read, that names a variable, and only then. -/
theorem copied_sequences_isolated_iff (leftFirst : Bool) (d4_ops : V → V → ops → Except Failure Bool)
    (original : Variable V) (s : CellStore (Cell V)) (there : ∀ a ∈ original.addrs, a < s.next)
    (bound : ∀ v ∈ original.sequences, ∀ p ∈ v.pointers, p.addr ∈ original.addrs) :
    ∃ copy s', original.ptr_duplicate s = .ok copy s' ∧
      List.Forall₂ (fun v v' => Isolated leftFirst d4_ops original s'.next v' ↔ v.reaches leftFirst d4_ops = false)
        original.sequences copy.sequences := by
  have allots : Allots s.next _ (fun m copy => CopyOf leftFirst d4_ops s.next m original copy) _ :=
    allots_ptr_duplicate original (fun _ mem => mem) s.next
  obtain ⟨copy, s', ran, made, new, -⟩ := allots s rfl
  refine ⟨copy, s', ran, ?_⟩
  obtain ⟨same, each⟩ := List.forall₂_iff_zip.mp made.sequences
  apply List.forall₂_iff_zip.mpr
  refine ⟨same, fun {v v'} pair => ?_⟩
  obtain ⟨like, own⟩ := each pair
  exact isolated_iff like own new there (bound v (List.of_mem_zip pair).1) s.cells

end

/-- `less` of two integers. -/
def lessInt (a b : Int) (op : ops) : Except Failure Bool :=
  match op with
  | .less => .ok (decide (a < b))
  | _ => .error (.other "Relational operators only work with scalar types.")

/-- A Sequence of one field, with the clause that the field is less than five. -/
def lessFive : Variable Int :=
  .sequence 0 true ⟨0, some [⟨.less, .basetype ⟨1, []⟩, .constant 5⟩], true⟩ [] [.simple 1 true]

/-- Of a group with this Sequence. -/
theorem group_of_lessFive : ∃ copy s', (Variable.group 2 true [lessFive] []).ptr_duplicate ⟨fun _ => ⟨7, true⟩, 3, []⟩ =
    .ok copy s' ∧ List.Forall₂ (fun v v' => Isolated true lessInt (.group 2 true [lessFive] []) s'.next v' ↔
      v.reaches true lessInt = false) (Variable.group 2 true [lessFive] []).sequences copy.sequences :=
  copied_sequences_isolated_iff true lessInt (.group 2 true [lessFive] []) ⟨fun _ => ⟨7, true⟩, 3, []⟩ (by decide)
    (by decide)

/-- The copy of a Sequence does not filter on its own. -/
theorem lessFive_not_isolated : ¬∀ (original : Variable Int) (s : CellStore (Cell Int)),
    (∀ a ∈ original.addrs, a < s.next) → (∀ v ∈ original.sequences, ∀ p ∈ v.pointers, p.addr ∈ original.addrs) →
    ∀ copy s', original.ptr_duplicate s = .ok copy s' → ∀ v ∈ copy.sequences, Isolated true lessInt original s'.next v := by
  intro all
  have allots : Allots 2 _ (fun m copy => CopyOf true lessInt 2 m lessFive copy) _ :=
    allots_ptr_duplicate lessFive (fun _ mem => mem) 2
  obtain ⟨copy, s', ran, made, new, -⟩ := allots ⟨fun _ => ⟨7, true⟩, 2, []⟩ rfl
  have isolated := all lessFive ⟨fun _ => ⟨7, true⟩, 2, []⟩ (by decide) (by decide) copy s' ran
  have sequences : List.Forall₂ _ [lessFive] copy.sequences := made.sequences
  generalize copy.sequences = vs at sequences isolated
  rcases sequences with _ | ⟨⟨like, own⟩, -⟩
  have nothing := (isolated_iff like own new (by decide) (by decide) fun _ => ⟨7, true⟩).mp
    (isolated _ List.mem_cons_self)
  have reached : lessFive.reaches true lessInt = true := by decide
  exact Bool.false_ne_true (nothing.symm.trans reached)

end Libdap.Dap4.Filtered
