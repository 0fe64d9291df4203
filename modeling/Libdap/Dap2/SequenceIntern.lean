import Libdap.Dap2.SequenceWalk

/-! # Interning nested Sequences

The pointers on the stack lead to `d_values` inside of each other: the rows around a Sequence
are pushed once, each as the last one where its pointer leads, with the pointer to the
`d_values` of its child. Interning goes in step with the walk and pushes the rows that it
gives where the pointer on top of the stack leads.
-/

namespace Libdap.Dap2

open Ints

variable {V : Type}

/-! ## Pointers -/

namespace BaseTypeRow

/-- The rows where a pointer leads. -/
def follow : List Nat → List (BaseTypeRow V) → Option (List (BaseTypeRow V))
  | [], rows => some rows
  | i :: path, rows => rows[i]?.bind fun row => follow path row.child

/-- Change the rows where a pointer leads. -/
def change (f : List (BaseTypeRow V) → List (BaseTypeRow V)) :
    List Nat → List (BaseTypeRow V) → List (BaseTypeRow V)
  | [], rows => f rows
  | i :: path, rows => rows.modify i fun r => mk r.vars (change f path r.child)

theorem size_of_follow {path : List Nat} {rows held : List (BaseTypeRow V)} (leads : follow path rows = some held) :
    size path rows = held.length := by
  induction path generalizing rows with
  | nil => cases leads; rfl
  | cons i path ih =>
      obtain ⟨row, found, inner⟩ := Option.bind_eq_some_iff.mp leads
      rw [size, found]
      exact ih inner

theorem pushBack_eq_change (row : BaseTypeRow V) (path : List Nat) (rows : List (BaseTypeRow V)) :
    pushBack row path rows = change (· ++ [row]) path rows := by
  induction path generalizing rows with
  | nil => rfl
  | cons i path ih => simp only [pushBack, change, ih]

theorem follow_change {f : List (BaseTypeRow V) → List (BaseTypeRow V)} {path : List Nat}
    {rows held : List (BaseTypeRow V)} (leads : follow path rows = some held) :
    follow path (change f path rows) = some (f held) := by
  induction path generalizing rows with
  | nil => cases leads; rfl
  | cons i path ih =>
      obtain ⟨row, found, inner⟩ := Option.bind_eq_some_iff.mp leads
      simp [follow, change, found, ih inner]

/-- Two changes in one place are one. -/
theorem change_change (f g : List (BaseTypeRow V) → List (BaseTypeRow V)) (path : List Nat)
    (rows : List (BaseTypeRow V)) : change g path (change f path rows) = change (g ∘ f) path rows := by
  induction path generalizing rows with
  | nil => rfl
  | cons i path ih =>
      simp only [change]
      rw [List.modify_modify_eq]
      refine congrArg (rows.modify i) (funext fun r => ?_)
      exact congrArg (mk r.vars) (ih r.child)

/-- What is changed further inside is changed in the rows where the pointer leads first. -/
theorem change_append (f : List (BaseTypeRow V) → List (BaseTypeRow V)) (path inner : List Nat)
    (rows : List (BaseTypeRow V)) : change f (path ++ inner) rows = change (change f inner) path rows := by
  induction path generalizing rows with
  | nil => rfl
  | cons i path ih => simp only [List.cons_append, change, ih]

theorem follow_append (path inner : List Nat) (rows : List (BaseTypeRow V)) :
    follow (path ++ inner) rows = (follow path rows).bind (follow inner) := by
  induction path generalizing rows with
  | nil => rfl
  | cons i path ih => simp [follow, ih, Option.bind_assoc]

/-- Only the rows that the pointer leads to matter for a change. -/
theorem change_congr {f g : List (BaseTypeRow V) → List (BaseTypeRow V)} {path : List Nat}
    {rows held : List (BaseTypeRow V)} (leads : follow path rows = some held) (same : f held = g held) :
    change f path rows = change g path rows := by
  induction path generalizing rows with
  | nil => cases leads; exact same
  | cons i path ih =>
      obtain ⟨row, found, inner⟩ := Option.bind_eq_some_iff.mp leads
      refine List.ext_getElem? fun j => ?_
      simp only [change, List.getElem?_modify]
      by_cases here : i = j
      · subst here
        simp [found, ih inner]
      · simp [here]

/-- Nothing is changed by nothing more. -/
theorem change_append_nil (path : List Nat) (rows : List (BaseTypeRow V)) : change (· ++ []) path rows = rows := by
  induction path generalizing rows with
  | nil => exact List.append_nil rows
  | cons i path ih =>
      simp only [change, ih]
      refine List.ext_getElem? fun j => ?_
      rw [List.getElem?_modify]
      split
      · cases rows[j]? with
        | none => rfl
        | some row => cases row; rfl
      · simp

/-- Rows inside of rows with these variables, from the outermost on. -/
def chain : List V → List (BaseTypeRow V) → List (BaseTypeRow V)
  | [], rows => rows
  | v :: vs, rows => [mk v (chain vs rows)]

theorem chain_append (us vs : List V) (rows : List (BaseTypeRow V)) :
    chain (us ++ vs) rows = chain us (chain vs rows) := by
  induction us with
  | nil => rfl
  | cons u us ih => rw [List.cons_append, chain, chain, ih]

/-- The pointer to the rows inside of a chain of such a length, which comes after `n` rows. -/
def inside (path : List Nat) (n : Nat) : Nat → List Nat
  | 0 => path
  | k + 1 => path ++ n :: List.replicate k 0

/-- The pointers that come on the stack with the chain. -/
def pointers (path : List Nat) (n : Nat) : Nat → List (List Nat)
  | 0 => []
  | k + 1 => inside path n (k + 1) :: pointers path n k

@[simp]
theorem length_pointers (path : List Nat) (n k : Nat) : (pointers path n k).length = k := by
  induction k with
  | zero => rfl
  | succ k ih => rw [pointers, List.length_cons, ih]

theorem follow_chain (vs : List V) (rows : List (BaseTypeRow V)) :
    follow (List.replicate vs.length 0) (chain vs rows) = some rows := by
  induction vs with
  | nil => rfl
  | cons v vs ih => simpa [follow, chain, List.replicate_succ] using ih

theorem change_chain (f : List (BaseTypeRow V) → List (BaseTypeRow V)) (vs : List V)
    (rows : List (BaseTypeRow V)) : change f (List.replicate vs.length 0) (chain vs rows) = chain vs (f rows) := by
  induction vs with
  | nil => rfl
  | cons v vs ih => simp [change, chain, List.replicate_succ, ih]

theorem modify_last (rows : List (BaseTypeRow V)) (row : BaseTypeRow V) (f : BaseTypeRow V → BaseTypeRow V) :
    (rows ++ [row]).modify rows.length f = rows ++ [f row] := by
  induction rows with
  | nil => rfl
  | cons first rows ih => simp [ih]

/-- What the pointer on top of the stack leads to. -/
theorem follow_inside {path : List Nat} {values held : List (BaseTypeRow V)}
    (leads : follow path values = some held) (vs : List V) (rows : List (BaseTypeRow V)) :
    follow (inside path held.length vs.length) (change (· ++ chain vs rows) path values) =
      some (if vs = [] then held ++ rows else rows) := by
  have leads' := follow_change (f := (· ++ chain vs rows)) leads
  cases vs with
  | nil => exact leads'
  | cons v vs =>
      rw [List.length_cons, inside, follow_append, leads', Option.bind_some, chain]
      simp [follow, follow_chain]

/-- What is pushed there comes after the other rows in the chain. -/
theorem change_inside {path : List Nat} {values held : List (BaseTypeRow V)}
    (leads : follow path values = some held) (vs : List V) (rows more : List (BaseTypeRow V)) :
    change (· ++ more) (inside path held.length vs.length) (change (· ++ chain vs rows) path values) =
      change (· ++ chain vs (rows ++ more)) path values := by
  cases vs with
  | nil =>
      rw [List.length_nil, inside, change_change]
      exact congrArg (change · path values) (funext fun c => List.append_assoc c rows more)
  | cons v vs =>
      rw [List.length_cons, inside, change_append, change_change]
      refine change_congr leads ?_
      simp [change, chain, change_chain, modify_last]

end BaseTypeRow

/-! ## The rows around a Sequence -/

def Sequence.cleared (s : Sequence V) : Sequence V := { s with unsentData := false }

/-- The Sequences around one, from its parent on: those whose rows are to be pushed, and the
    others, with where the pointer on top of the stack leads. -/
structure Place (above : List (Sequence V)) (m : Interned V) where
  pend : List (Sequence V)
  done : List (Sequence V)
  path : List Nat
  rest : List (List Nat)
  held : List (BaseTypeRow V)
  split : above = pend ++ done
  unsent : ∀ s ∈ pend, s.unsentData = true
  sent : ∀ s ∈ done, s.unsentData = false
  stack : m.stack = path :: rest
  leads : BaseTypeRow.follow path m.values = some held

namespace Place

open BaseTypeRow

variable {above : List (Sequence V)} {m : Interned V}

/-- The variables of the rows that are to be pushed, from the outermost on. -/
def vars (place : Place above m) : List V := (place.pend.map Sequence.vars).reverse

@[simp]
theorem length_vars (place : Place above m) : place.vars.length = place.pend.length := by simp [vars]

/-- What is interned when rows are pushed inside of those. -/
def pushed (place : Place above m) (rows : List (BaseTypeRow V)) : Interned V where
  values := change (· ++ chain place.vars rows) place.path m.values
  stack := pointers place.path place.held.length place.pend.length ++ m.stack

/-- The pointer on top of the stack then. -/
def top (place : Place above m) : List Nat := inside place.path place.held.length place.pend.length

theorem top_pushed (place : Place above m) (rows : List (BaseTypeRow V)) :
    (place.pushed rows).top = .ok place.top := by
  have stack := place.stack
  unfold Interned.top pushed top
  cases place.pend.length with
  | zero => simp [pointers, inside, stack]
  | succ k => simp [pointers]

theorem tail_stack (place : Place above m) (rows : List (BaseTypeRow V)) :
    ∃ rest, (place.pushed rows).stack = place.top :: rest := by
  have top := place.top_pushed rows
  unfold Interned.top at top
  split at top
  · cases top
  · cases top
    exact ⟨_, ‹_›⟩

/-- A row goes inside of the others. -/
def cons {s : Sequence V} (place : Place above m) (unsent : s.unsentData = true) : Place (s :: above) m where
  pend := s :: place.pend
  done := place.done
  path := place.path
  rest := place.rest
  held := place.held
  split := congrArg (s :: ·) place.split
  unsent := List.forall_mem_cons.mpr ⟨unsent, place.unsent⟩
  sent := place.sent
  stack := place.stack
  leads := place.leads

/-- When all rows around have been pushed. -/
def after (place : Place above m) (rows : List (BaseTypeRow V)) :
    Place (above.map Sequence.cleared) (place.pushed rows) where
  pend := []
  done := above.map Sequence.cleared
  path := place.top
  rest := (place.pushed rows).stack.tail
  held := if place.vars = [] then place.held ++ rows else rows
  split := rfl
  unsent := by simp
  sent := List.forall_mem_map.mpr fun _ _ => rfl
  stack := by
    obtain ⟨rest, stack⟩ := place.tail_stack rows
    rw [stack, List.tail_cons]
  leads := by
    have leads := follow_inside place.leads place.vars rows
    rwa [length_vars] at leads

/-- Rows are pushed after others. -/
theorem pushed_after (place : Place above m) (rows more : List (BaseTypeRow V)) :
    (place.after rows).pushed more = place.pushed (rows ++ more) := by
  have values := change_inside place.leads place.vars rows more
  rw [length_vars] at values
  unfold pushed
  congr 1

theorem pushed_cons {s : Sequence V} (place : Place above m) (unsent : s.unsentData = true)
    (rows : List (BaseTypeRow V)) : (place.cons unsent).pushed rows =
      { place.pushed [.mk s.vars rows] with
        stack := (place.cons unsent).top :: (place.pushed [.mk s.vars rows]).stack } := by
  unfold pushed
  congr 1
  have vars : (place.cons unsent).vars = place.vars ++ [s.vars] := by simp [Place.vars, cons]
  rw [vars]
  exact congrArg (change · place.path m.values) (funext fun c => congrArg (c ++ ·) (chain_append _ _ _))

/-- The pointer that comes on the stack with a row leads inside of it. -/
theorem top_cons {s : Sequence V} (place : Place above m) (unsent : s.unsentData = true) :
    (place.cons unsent).top = place.top ++ [size place.top (place.pushed []).values] := by
  have size_ : size place.top (place.pushed []).values = _ := size_of_follow (place.after []).leads
  rw [size_]
  show inside place.path place.held.length (place.pend.length + 1) = inside _ _ _ ++ [List.length (if _ then _ else _)]
  cases pend : place.pend with
  | nil => simp [inside, vars, pend]
  | cons first others => simp [inside, vars, pend, ← List.replicate_succ']

/-- Such a row is pushed inside of the others. -/
theorem pushParent_top {s : Sequence V} (place : Place above m) (unsent : s.unsentData = true) :
    (place.pushed []).pushParent place.top s.vars = (place.cons unsent).pushed [] := by
  have values := congrArg Interned.values (place.pushed_after [] [.mk s.vars []])
  rw [pushed_cons, top_cons]
  unfold Interned.pushParent
  rw [pushBack_eq_change]
  exact congrArg₂ Interned.mk values rfl

/-- What has been pushed is left as it is. -/
theorem partTwo_done {done : List (Sequence V)} (sent : ∀ s ∈ done, s.unsentData = false) {path : List Nat}
    {rest : List (List Nat)} (stack : m.stack = path :: rest) :
    Interned.partTwo done m = .ok (done.map Sequence.cleared, m) := by
  induction done with
  | nil => rfl
  | cons s done ih =>
      rw [List.forall_mem_cons] at sent
      have cleared : s.cleared = s := by
        obtain ⟨_, _, _, _, _, _, _, _, _, _, _, _⟩ := s
        exact congrArg (Sequence.mk _ _ _ _ _ _ _ _ · _ _ _) sent.1.symm
      have top : m.top = .ok path := by rw [Interned.top, stack]
      simp [Interned.partTwo, ih sent.2, top, sent.1, cleared]

/-- `intern_data_parent_part_two` pushes the rows, with nothing inside of the innermost. -/
theorem partTwo_eq (place : Place above m) :
    Interned.partTwo above m = .ok (above.map Sequence.cleared, place.pushed []) := by
  obtain ⟨pend, done, path, rest, held, rfl, unsent, sent, stack, leads⟩ := place
  induction pend with
  | nil =>
      refine (partTwo_done sent stack).trans ?_
      have same : Place.pushed (⟨[], done, path, rest, held, rfl, unsent, sent, stack, leads⟩ : Place ([] ++ done) m) [] = m := by
        unfold pushed
        exact congrArg (Interned.mk · m.stack) (change_append_nil path m.values)
      rw [same]
      rfl
  | cons s pend ih =>
      rw [List.forall_mem_cons] at unsent
      let inner : Place (pend ++ done) m := ⟨pend, done, path, rest, held, rfl, unsent.2, sent, stack, leads⟩
      have first : Interned.partTwo (pend ++ done) m = .ok ((pend ++ done).map Sequence.cleared, inner.pushed []) :=
        ih unsent.2
      simp only [List.cons_append, Interned.partTwo, first, ok_bind, top_pushed, unsent.1, if_true]
      exact congrArg (fun m => Except.ok (_, m)) (inner.pushParent_top unsent.1)

end Place

/-! ## Interning goes in step -/

/-- Rows that are interned by some Sequence of a nest, as they are walked through. -/
structure InternsRows {above : List (Sequence V)} {m : Interned V} (place : Place above m) (n : Nest V)
    (kept : Kept V) (w : Walked V) : Prop where
  nest : kept.2.1 = w.nest
  tags : kept.2.1.tags = n.tags
  around : kept.1 = if w.rows.isEmpty then above else above.map Sequence.cleared
  interned : kept.2.2 = if w.rows.isEmpty then m else place.pushed w.rows

/-- All that is interned of an instance: the pointer to its `d_values` comes from the stack
    if it was put there for the instance. -/
structure InternsInstance {above : List (Sequence V)} {m : Interned V} (place : Place above m) (n : Nest V)
    (kept : Kept V) (w : Walked V) : Prop where
  nest : kept.2.1 = w.nest
  tags : kept.2.1.tags = n.tags
  around : kept.1 = if w.rows.isEmpty then above else above.map Sequence.cleared
  values : kept.2.2.values = if w.rows.isEmpty then m.values else (place.pushed w.rows).values
  stack : place.pend ≠ [] → kept.2.2 = if w.rows.isEmpty then m else (place.pushed w.rows).pop

/-- The stack leads on after the rows. -/
theorem InternsRows.place {above : List (Sequence V)} {m : Interned V} {place : Place above m} {n : Nest V}
    {kept : Kept V} {w : Walked V} (h : InternsRows place n kept w) : Nonempty (Place kept.1 kept.2.2) := by
  rw [h.around, h.interned]
  split
  · exact ⟨place⟩
  · exact ⟨place.after w.rows⟩

theorem InternsRows.append {above : List (Sequence V)} {m : Interned V} {place : Place above m} {n next : Nest V}
    {first others : Kept V} {v w : Walked V} (h : InternsRows place n first v)
    (same : first.2.1.SameTags next) (h' : ∀ place' : Place first.1 first.2.2, InternsRows place' next others w) :
    InternsRows place n others ⟨w.nest, v.rows ++ w.rows⟩ := by
  obtain ⟨around, nest, interned⟩ := first
  obtain ⟨-, tags, around_, interned_⟩ := h
  cases empty : v.rows with
  | nil =>
      rw [empty] at around_ interned_
      obtain rfl : around = above := around_
      obtain rfl : interned = m := interned_
      exact ⟨(h' place).nest, (h' place).tags.trans (same.1.trans tags), (h' place).around, (h' place).interned⟩
  | cons row rows =>
      rw [empty] at around_ interned_
      obtain rfl : around = above.map Sequence.cleared := around_
      obtain rfl : interned = place.pushed (row :: rows) := interned_
      obtain ⟨nest', tags', around', interned'⟩ := h' (place.after (row :: rows))
      refine ⟨nest', tags'.trans (same.1.trans tags), ?_, ?_⟩
      · rw [around']
        cases w.rows with
        | nil => rfl
        | cons _ _ => simp [Sequence.cleared]
      · rw [interned', place.pushed_after]
        cases w.rows with
        | nil => simp
        | cons _ _ => rfl

namespace Nest

variable {selection : List V → Bool}

theorem readRow_inStep_self (selected : V → Bool) (row : Int) (n : Nest V) :
    InStep .unread (fun r q => r = q ∧ n.SameTags r.2) (n.readRow selected row) (n.readRow selected row) := by
  have keeps := readRow_keeps selected row n
  cases read : n.readRow selected row with
  | error e => exact .error e
  | ok r => exact .ok ⟨rfl, keeps r read⟩

theorem internLeafRows_inStep (selection : List V → Bool) (above : List (Sequence V)) (path : List Nat) (fuel : Nat) (status : Bool) (i : Int)
    (n : Nest V) (m : Interned V) :
    InStep .unread (fun r w => r.1 = w.nest ∧ r.1.tags = n.tags ∧
        r.2 = { m with values := BaseTypeRow.change (· ++ w.rows) path m.values })
      (internLeafRows selection above path fuel status i n m)
      (walkLeafRows (selected selection above) fuel status i n) := by
  induction fuel generalizing status i n m with
  | zero => exact .error _
  | succ fuel ih =>
      unfold internLeafRows walkLeafRows
      split
      · refine (readRow_inStep_self _ _ _).bind fun r q both => ?_
        obtain ⟨rfl, same⟩ := both
        refine (ih r.1 _ r.2 (m.pushRow path n.self.vars)).bind_right fun kept w rest => .ok ⟨rest.1, ?_, ?_⟩
        · exact rest.2.1.trans (same.1.trans (tags_setReadP _ _))
        · rw [rest.2.2, Interned.pushRow, BaseTypeRow.pushBack_eq_change, BaseTypeRow.change_change]
          refine congrArg (Interned.mk · m.stack) (congrArg (BaseTypeRow.change · path m.values) ?_)
          exact funext fun c => List.append_assoc c _ _
      · exact .ok ⟨rfl, rfl, by rw [BaseTypeRow.change_append_nil]⟩

theorem internDataForLeaf_inStep {above : List (Sequence V)} {m : Interned V} (place : Place above m) (n : Nest V) :
    InStep .unread (InternsInstance place n) (internDataForLeaf selection above n m)
      (walkLeaf (selected selection above) n) := by
  unfold internDataForLeaf walkLeaf
  refine (readRow_inStep_self _ _ n).bind fun r q both => ?_
  obtain ⟨rfl, same⟩ := both
  obtain ⟨status, next⟩ := r
  have empty := walkLeafRows_isEmpty (selected selection above) (next.self.ahead.length + 2) status
    n.self.firstRow next
  by_cases more : (status && !next.self.isEndOfRows n.self.firstRow) = true
  · have alike : selected selection (above.map Sequence.cleared) = selected selection above := by
      funext v
      simp only [selected, List.map_map]
      rfl
    have rows := internLeafRows_inStep selection (above.map Sequence.cleared) place.top
      (next.self.ahead.length + 2) status n.self.firstRow next (place.pushed [])
    rw [alike] at rows
    simp only [more, if_true, place.partTwo_eq, ok_bind, place.top_pushed]
    refine (rows.ensures (fun _ _ => trivial) empty).bind_left fun kept w both => .ok ?_
    obtain ⟨⟨nest, tags, interned⟩, -, isEmpty⟩ := both
    have some_ : w.rows.isEmpty = false := by rw [isEmpty, more]; rfl
    have pushed : kept.2 = place.pushed w.rows := interned.trans (place.pushed_after [] w.rows)
    refine ⟨nest, tags.trans same.1, ?_, ?_, fun _ => ?_⟩
    · rw [some_]
      rfl
    · rw [some_, pushed]
      rfl
    · rw [some_, pushed]
      rfl
  · rw [Bool.not_eq_true] at more
    simp only [more, Bool.false_eq_true, if_false]
    have none : walkLeafRows (selected selection above) (next.self.ahead.length + 2) status n.self.firstRow next =
        .ok ⟨next, []⟩ := by
      unfold walkLeafRows
      simp only [more, Bool.false_eq_true, if_false]
      rfl
    rw [none]
    exact .ok ⟨rfl, same.1, rfl, rfl, fun _ => rfl⟩

theorem internChild_inStep {intern : List (Sequence V) → Nest V → Interned V → Except Failure (Kept V)}
    {walk : Nest V → Except Failure (Walked V)} {above : List (Sequence V)} {m : Interned V}
    (place : Place above m) {self c : Sequence V} {below : List (Sequence V)}
    (inner : ∀ unsent : self.unsentData = true, InStep .unread (InternsInstance (place.cons unsent) ⟨c, below⟩)
      (intern (self :: above) ⟨c, below⟩ m) (walk ⟨c, below⟩)) :
    InStep .unread (InternsRows place ⟨self, c :: below⟩) (internChild intern above ⟨self, c :: below⟩ m)
      (walkChild walk ⟨self, c :: below⟩) := by
  simp only [internChild, walkChild]
  by_cases unsent : self.unsentData
  swap
  · rw [if_neg unsent]
    exact .giveUp _
  rw [if_pos unsent]
  refine (inner unsent).bind fun kept w interns => ?_
  obtain ⟨nest, tags, around, -, stack⟩ := interns
  have interned := stack (List.cons_ne_nil _ _)
  have all : w.nest.all = kept.2.1.all := by rw [nest]
  cases empty : w.rows.isEmpty with
  | true =>
      rw [empty, if_pos rfl] at around interned
      refine .ok ⟨?_, ?_, ?_, interned⟩
      · rw [around, all]
        rfl
      · rw [around]
        exact congrArg (_ :: ·) tags
      · rw [around]
        rfl
  | false =>
      rw [empty, if_neg Bool.false_ne_true] at around interned
      refine .ok ⟨?_, ?_, ?_, ?_⟩
      · rw [around, all]
        rfl
      · rw [around]
        exact congrArg (_ :: ·) tags
      · rw [around]
        rfl
      · rw [interned, place.pushed_cons]
        rfl

theorem internParentRows_inStep {intern : List (Sequence V) → Nest V → Interned V → Except Failure (Kept V)}
    {walk : V → Nest V → Except Failure (Walked V)} {around : List V} {c : Tags} {below : List Tags}
    (inner : ∀ (self : Sequence V) above (m : Interned V) (n : Nest V) (place : Place above m)
      (unsent : self.unsentData = true), above.map Sequence.vars = around → n.tags = c :: below →
      InStep .unread (InternsInstance (place.cons unsent) n) (intern (self :: above) n m) (walk self.vars n))
    (fuel : Nat) (status : Bool) (i : Int) (above : List (Sequence V)) (n : Nest V) (m : Interned V)
    (vars : above.map Sequence.vars = around) (tags : n.tags = n.self.tags :: c :: below) (place : Place above m) :
    InStep .unread (InternsRows place n) (internParentRows intern fuel status i above n m)
      (walkParentRows walk fuel status i n) := by
  induction fuel generalizing status i above n m with
  | zero => exact .error _
  | succ fuel ih =>
      unfold internParentRows walkParentRows
      split
      · obtain ⟨self, below'⟩ := n
        cases below' with
        | nil => cases (List.cons.inj tags).2
        | cons first others =>
            have child := internChild_inStep place
              (fun unsent => inner self above m ⟨first, others⟩ place unsent vars (List.cons.inj tags).2)
            refine child.bind fun kept w interns => ?_
            rw [← interns.nest]
            refine (readRow_inStep_self _ _ _).bind fun r q both => ?_
            obtain ⟨rfl, same⟩ := both
            have same_ : kept.2.1.SameTags r.2 := (sameTags_setReadP false _).trans same
            have varsAfter : kept.1.map Sequence.vars = around := by
              rw [interns.around, ← vars]
              split
              · rfl
              · rw [List.map_map]
                rfl
            have tagsAfter : r.2.tags = r.2.self.tags :: c :: below := by
              have all := (same_.1.trans interns.tags).trans tags
              rw [(List.cons.inj all).1.symm] at all
              exact all
            obtain ⟨next⟩ := interns.place
            exact (InStep.of_forall next fun place' => ih r.1 _ kept.1 r.2 kept.2.2 varsAfter tagsAfter place').bind_right
              fun kept' w' rest => .ok (interns.append same_ rest)
      · exact .ok ⟨rfl, rfl, rfl, rfl⟩

theorem internDataParentPartOne_inStep
    {intern : List (Sequence V) → Nest V → Interned V → Except Failure (Kept V)}
    {walk : V → Nest V → Except Failure (Walked V)} {above : List (Sequence V)} {m : Interned V}
    (place : Place above m) {n : Nest V} {c : Tags} {below : List Tags}
    (inner : ∀ (self : Sequence V) above' (m : Interned V) (n : Nest V) (place : Place above' m)
      (unsent : self.unsentData = true), above'.map Sequence.vars = above.map Sequence.vars → n.tags = c :: below →
      InStep .unread (InternsInstance (place.cons unsent) n) (intern (self :: above') n m) (walk self.vars n))
    (tags : n.tags = n.self.tags :: c :: below) :
    InStep .unread (InternsInstance place n) (internDataParentPartOne intern above n m) (walkParent walk n) := by
  unfold internDataParentPartOne walkParent
  refine (readRow_inStep_self _ _ n).bind fun r q both => ?_
  obtain ⟨rfl, same⟩ := both
  obtain ⟨status, next⟩ := r
  have tagsBefore : next.tags = next.self.tags :: c :: below := by
    rw [(List.cons.inj same.1).1]
    exact same.1.trans tags
  have rows := internParentRows_inStep inner (next.self.ahead.length + 2) status n.self.firstRow
    above next m rfl tagsBefore place
  refine rows.bind fun kept w interns => .ok ?_
  obtain ⟨nest, tagsAfter, around, interned⟩ := interns
  refine ⟨?_, tagsAfter.trans same.1, around, ?_, fun inside => ?_⟩
  · rw [← nest]
  · rw [interned]
    cases w.rows.isEmpty with
    | true => simp
    | false =>
        simp only [Bool.false_eq_true, if_false]
        split <;> rfl
  · rw [interned]
    cases w.rows.isEmpty with
    | true => simp
    | false =>
        have more : m.stack.length < (place.pushed w.rows).stack.length := by
          have some_ := List.length_pos_iff.mpr inside
          simp only [Place.pushed, List.length_append, BaseTypeRow.length_pointers]
          omega
        exact if_pos more

/-- Interning goes in step with the walk, and what it pushes are the rows of the walk. -/
theorem internDataPrivate_inStep (selection : List V → Bool) (depth : Nat) {above : List (Sequence V)}
    {m : Interned V} (place : Place above m) (n : Nest V) (tagged : Tagged n.tags)
    (length : n.below.length = depth) :
    InStep .unread (InternsInstance place n) (internDataPrivate selection depth above n m)
      (walk selection depth (above.map Sequence.vars) n) := by
  induction depth generalizing above n m with
  | zero =>
      have below := List.length_eq_zero_iff.mp length
      have isLeaf : n.self.leafSequence = true := by
        have leaf : n.tags = [n.self.tags] := by rw [tags, all, below]; rfl
        rw [leaf] at tagged
        exact tagged.1
      rw [internDataPrivate, walk, if_pos isLeaf, if_pos isLeaf]
      exact internDataForLeaf_inStep place n
  | succ depth ih =>
      obtain ⟨self, below⟩ := n
      cases below with
      | nil => cases length
      | cons c below =>
          have parent : self.leafSequence = false := tagged.1
          rw [internDataPrivate, walk, if_neg (by simp [parent]), if_neg (by simp [parent])]
          refine internDataParentPartOne_inStep place ?_ rfl
          intro self' above' m' n' place' unsent vars tags
          have tagged' : Tagged n'.tags := tags ▸ tagged.2.2
          have length' : n'.below.length = depth := by
            have both := congrArg List.length tags
            simp [Nest.tags, all] at both length
            omega
          rw [← vars]
          exact ih (place'.cons unsent) n' tagged' length'

end Nest

end Libdap.Dap2
