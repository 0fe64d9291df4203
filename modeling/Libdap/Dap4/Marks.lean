import Libdap.Dap4.LookupInverse
import Libdap.Dap4.MarkedArrays

/-! # What a constraint sends

An accepted constraint marks the variables that its clauses name without fields, all
that is in them, and all that they are in.
-/

namespace Libdap.Dap4

/-! ## Places and identities -/

namespace BaseType

theorem id_mem (b : BaseType) : b.id ∈ b.ids := by
  cases b <;> rw [ids] <;> exact List.mem_cons_self

theorem idsIn_of_mem {vars : List BaseType} {b : BaseType} (mem : b ∈ vars) : b.ids ⊆ idsIn vars := by
  induction vars with
  | nil => cases mem
  | cons c vars ih =>
      rw [idsIn]
      rcases List.mem_cons.mp mem with rfl | mem
      · exact List.subset_append_left _ _
      · exact List.Subset.trans (ih mem) (List.subset_append_right _ _)

theorem mem_idsIn {vars : List BaseType} {x : Nat} (mem : x ∈ idsIn vars) : ∃ b ∈ vars, x ∈ b.ids := by
  induction vars with
  | nil => simp [idsIn] at mem
  | cons b vars ih =>
      rw [idsIn, List.mem_append] at mem
      rcases mem with mem | mem
      · exact ⟨b, List.mem_cons_self, mem⟩
      · obtain ⟨c, there, mem⟩ := ih mem
        exact ⟨c, List.mem_cons_of_mem _ there, mem⟩

/-- Two variables that share an identity are one. -/
theorem same_of_ids {vars : List BaseType} (nodup : (idsIn vars).Nodup) {b c : BaseType} (mem : b ∈ vars) (mem' : c ∈ vars)
    {x : Nat} (here : x ∈ b.ids) (there : x ∈ c.ids) : b = c := by
  induction vars with
  | nil => cases mem
  | cons d vars ih =>
      rw [idsIn, List.nodup_append'] at nodup
      obtain ⟨-, rest, apart⟩ := nodup
      rcases List.mem_cons.mp mem with rfl | first <;> rcases List.mem_cons.mp mem' with rfl | second
      · rfl
      · exact absurd (idsIn_of_mem second there) (apart here)
      · exact absurd (idsIn_of_mem first here) (apart there)
      · exact ih rest first second

theorem nodup_of_mem {vars : List BaseType} (nodup : (idsIn vars).Nodup) {b : BaseType} (mem : b ∈ vars) : b.ids.Nodup := by
  induction vars with
  | nil => cases mem
  | cons c vars ih =>
      rw [idsIn] at nodup
      rcases List.mem_cons.mp mem with rfl | mem
      · exact nodup.of_append_left
      · exact ih nodup.of_append_right mem

theorem ids_of_below {b y : BaseType} {q : List Step} (below : Below b q y) : y.ids ⊆ b.ids := by
  induction below with
  | here => exact List.Subset.refl _
  | field mem _ ih =>
      rw [ids]
      exact List.Subset.trans ih (List.Subset.trans (idsIn_of_mem mem) (List.subset_cons_self _ _))
  | element _ ih =>
      rw [ids]
      exact List.Subset.trans ih (List.subset_cons_self _ _)

theorem ids_of_nodeAt {vars : List BaseType} {q : List Step} {y : BaseType} (at_ : NodeAt vars q y) :
    y.ids ⊆ idsIn vars := by
  obtain ⟨b, mem, rest, -, below⟩ := at_
  exact List.Subset.trans (ids_of_below below) (idsIn_of_mem mem)

mutual

/-- The way up from a variable stays in what it starts in. -/
theorem of_parents {x : Nat} (b : BaseType) {l : List Nat} (found : parents x b = some l) : x ∈ b.ids ∧ l ⊆ b.ids := by
  cases b with
  | simple id name =>
      rw [parents] at found
      split at found
      · rename_i same
        obtain rfl := Option.some.inj found
        rw [ids]
        exact ⟨by simp [same], List.nil_subset _⟩
      · cases found
  | array id name decl proto =>
      rw [parents] at found
      rw [ids]
      split at found
      · rename_i same
        obtain rfl := Option.some.inj found
        exact ⟨by simp [same], List.nil_subset _⟩
      · obtain ⟨l', inside, rfl⟩ := Option.map_eq_some_iff.mp found
        obtain ⟨mem, sub⟩ := of_parents proto inside
        refine ⟨List.mem_cons_of_mem _ mem, ?_⟩
        exact List.append_subset.mpr ⟨List.Subset.trans sub (List.subset_cons_self _ _), by simp⟩
  | constructor id name kind vars =>
      rw [parents] at found
      rw [ids]
      split at found
      · rename_i same
        obtain rfl := Option.some.inj found
        exact ⟨by simp [same], List.nil_subset _⟩
      · obtain ⟨l', inside, rfl⟩ := Option.map_eq_some_iff.mp found
        obtain ⟨c, there, inside⟩ := of_parentsIn vars inside
        refine ⟨List.mem_cons_of_mem _ (idsIn_of_mem there inside.1), ?_⟩
        exact List.append_subset.mpr
          ⟨List.Subset.trans inside.2.1 (List.Subset.trans (idsIn_of_mem there) (List.subset_cons_self _ _)), by simp⟩

theorem of_parentsIn {x : Nat} (vars : List BaseType) {l : List Nat} (found : parentsIn x vars = some l) :
    ∃ c ∈ vars, x ∈ c.ids ∧ l ⊆ c.ids ∧ parents x c = some l := by
  cases vars with
  | nil =>
      rw [parentsIn] at found
      cases found
  | cons b vars =>
      rw [parentsIn] at found
      rcases Option.or_eq_some_iff.mp found with here | ⟨-, rest⟩
      · obtain ⟨mem, sub⟩ := of_parents b here
        exact ⟨b, List.mem_cons_self, mem, sub, here⟩
      · obtain ⟨c, there, inside⟩ := of_parentsIn vars rest
        exact ⟨c, List.mem_cons_of_mem _ there, inside⟩

end

mutual

theorem parents_of_mem {x : Nat} (b : BaseType) (mem : x ∈ b.ids) : ∃ l, parents x b = some l := by
  cases b with
  | simple id name =>
      rw [ids, List.mem_singleton] at mem
      exact ⟨[], by rw [parents, if_pos mem.symm]⟩
  | array id name decl proto =>
      rw [ids] at mem
      rw [parents]
      by_cases same : id = x
      · exact ⟨[], if_pos same⟩
      · obtain ⟨l, inside⟩ := parents_of_mem proto ((List.mem_cons.mp mem).resolve_left (Ne.symm same))
        exact ⟨l ++ [id], by rw [if_neg same, inside]; rfl⟩
  | constructor id name kind vars =>
      rw [ids] at mem
      rw [parents]
      by_cases same : id = x
      · exact ⟨[], if_pos same⟩
      · obtain ⟨l, inside⟩ := parentsIn_of_mem vars ((List.mem_cons.mp mem).resolve_left (Ne.symm same))
        exact ⟨l ++ [id], by rw [if_neg same, inside]; rfl⟩

theorem parentsIn_of_mem {x : Nat} (vars : List BaseType) (mem : x ∈ idsIn vars) : ∃ l, parentsIn x vars = some l := by
  cases vars with
  | nil => simp [idsIn] at mem
  | cons b vars =>
      rw [parentsIn]
      cases here : parents x b with
      | some l => exact ⟨l, rfl⟩
      | none =>
          rw [idsIn, List.mem_append] at mem
          rcases mem with mem | mem
          · obtain ⟨l, found⟩ := parents_of_mem b mem
            rw [here] at found
            cases found
          · exact parentsIn_of_mem vars mem

end

/-- What is on the way up from a variable is what has it inside. -/
theorem mem_parents {b y : BaseType} {q : List Step} (below : Below b q y) (nodup : b.ids.Nodup) {x : Nat} {l : List Nat}
    (found : parents x b = some l) : y.id ∈ l ↔ x ∈ y.ids ∧ y.id ≠ x := by
  induction below generalizing l with
  | here b =>
      have inside := (of_parents b found).1
      cases b with
      | simple id name =>
          rw [ids, List.mem_singleton] at inside
          rw [parents, if_pos inside.symm] at found
          obtain rfl := Option.some.inj found
          simp [BaseType.id, inside]
      | array id name decl proto =>
          rw [parents] at found
          split at found
          · rename_i same
            obtain rfl := Option.some.inj found
            simp [BaseType.id, same]
          · rename_i other
            obtain ⟨l', -, rfl⟩ := Option.map_eq_some_iff.mp found
            exact iff_of_true (by simp [BaseType.id]) ⟨inside, other⟩
      | constructor id name kind vars =>
          rw [parents] at found
          split at found
          · rename_i same
            obtain rfl := Option.some.inj found
            simp [BaseType.id, same]
          · rename_i other
            obtain ⟨l', -, rfl⟩ := Option.map_eq_some_iff.mp found
            exact iff_of_true (by simp [BaseType.id]) ⟨inside, other⟩
  | @field id name kind fields c y q mem below ih =>
      rw [ids, List.nodup_cons] at nodup
      have within : y.ids ⊆ idsIn fields := List.Subset.trans (ids_of_below below) (idsIn_of_mem mem)
      have other : y.id ≠ id := fun same => nodup.1 (same ▸ within (id_mem y))
      rw [parents] at found
      split at found
      · rename_i same
        obtain rfl := Option.some.inj found
        exact iff_of_false List.not_mem_nil fun both => nodup.1 (same ▸ within both.1)
      · obtain ⟨l', inside, rfl⟩ := Option.map_eq_some_iff.mp found
        obtain ⟨d, there, here, sub, found'⟩ := of_parentsIn fields inside
        rw [List.mem_append, List.mem_singleton, or_iff_left other]
        by_cases same : d = c
        · subst same
          exact ih (nodup_of_mem nodup.2 there) found'
        · have apart : ∀ z ∈ d.ids, z ∉ y.ids := by
            intro z one two
            exact same (same_of_ids nodup.2 there mem one (ids_of_below below two))
          exact iff_of_false (fun on => apart _ (sub on) (id_mem y)) fun both => apart _ here both.1
  | @element id decl name proto y q below ih =>
      rw [ids, List.nodup_cons] at nodup
      have within := ids_of_below below
      have other : y.id ≠ id := fun same => nodup.1 (same ▸ within (id_mem y))
      rw [parents] at found
      split at found
      · rename_i same
        obtain rfl := Option.some.inj found
        exact iff_of_false List.not_mem_nil fun both => nodup.1 (same ▸ within both.1)
      · obtain ⟨l', inside, rfl⟩ := Option.map_eq_some_iff.mp found
        rw [List.mem_append, List.mem_singleton, or_iff_left other]
        exact ih nodup.2 inside

end BaseType

namespace D4Group

theorem ids_eq (g : D4Group) : g.ids = g.id :: (BaseType.idsIn g.vars ++ idsIn g.groups) := by
  cases g
  rw [ids]
  rfl

theorem id_mem (g : D4Group) : g.id ∈ g.ids := by
  rw [ids_eq]
  exact List.mem_cons_self

theorem idsIn_of_mem {gs : List D4Group} {g : D4Group} (mem : g ∈ gs) : g.ids ⊆ idsIn gs := by
  induction gs with
  | nil => cases mem
  | cons c gs ih =>
      rw [idsIn]
      rcases List.mem_cons.mp mem with rfl | mem
      · exact List.subset_append_left _ _
      · exact List.Subset.trans (ih mem) (List.subset_append_right _ _)

theorem same_of_ids {gs : List D4Group} (nodup : (idsIn gs).Nodup) {g c : D4Group} (mem : g ∈ gs) (mem' : c ∈ gs)
    {x : Nat} (here : x ∈ g.ids) (there : x ∈ c.ids) : g = c := by
  induction gs with
  | nil => cases mem
  | cons d gs ih =>
      rw [idsIn, List.nodup_append'] at nodup
      obtain ⟨-, rest, apart⟩ := nodup
      rcases List.mem_cons.mp mem with rfl | first <;> rcases List.mem_cons.mp mem' with rfl | second
      · rfl
      · exact absurd (idsIn_of_mem second there) (apart here)
      · exact absurd (idsIn_of_mem first here) (apart there)
      · exact ih rest first second

theorem nodup_of_mem {gs : List D4Group} (nodup : (idsIn gs).Nodup) {g : D4Group} (mem : g ∈ gs) : g.ids.Nodup := by
  induction gs with
  | nil => cases mem
  | cons c gs ih =>
      rw [idsIn] at nodup
      rcases List.mem_cons.mp mem with rfl | mem
      · exact nodup.of_append_left
      · exact ih nodup.of_append_right mem

theorem ids_of_groupAt {g g' : D4Group} {p : List Name} (at_ : GroupAt g p g') : g'.ids ⊆ g.ids := by
  induction at_ with
  | here => exact List.Subset.refl _
  | @child g c g' p mem _ ih =>
      rw [ids_eq g]
      exact List.Subset.trans ih (List.Subset.trans (idsIn_of_mem mem)
        (List.Subset.trans (List.subset_append_right _ _) (List.subset_cons_self _ _)))

theorem vars_subset (g : D4Group) : BaseType.idsIn g.vars ⊆ g.ids := by
  rw [ids_eq]
  exact List.Subset.trans (List.subset_append_left _ _) (List.subset_cons_self _ _)

theorem parents_eq (x : Nat) (g : D4Group) :
    g.parents x = ((BaseType.parentsIn x g.vars).or (parentsIn x g.groups)).map (· ++ [g.id]) := by
  cases g
  rw [parents]
  rfl

mutual

theorem of_parents {x : Nat} (g : D4Group) {l : List Nat} (found : parents x g = some l) : x ∈ g.ids ∧ l ⊆ g.ids := by
  cases g with
  | mk id name dims enumDefs vars groups =>
      rw [parents] at found
      rw [ids]
      obtain ⟨l', inside, rfl⟩ := Option.map_eq_some_iff.mp found
      rcases Option.or_eq_some_iff.mp inside with here | ⟨-, below⟩
      · obtain ⟨c, there, mem, sub, -⟩ := BaseType.of_parentsIn vars here
        have up := BaseType.idsIn_of_mem there
        refine ⟨List.mem_cons_of_mem _ (List.mem_append_left _ (up mem)), ?_⟩
        exact List.append_subset.mpr ⟨List.Subset.trans sub (List.Subset.trans up
          (List.Subset.trans (List.subset_append_left _ _) (List.subset_cons_self _ _))), by simp⟩
      · obtain ⟨c, there, mem, sub, -⟩ := of_parentsIn groups below
        have up := idsIn_of_mem there
        refine ⟨List.mem_cons_of_mem _ (List.mem_append_right _ (up mem)), ?_⟩
        exact List.append_subset.mpr ⟨List.Subset.trans sub (List.Subset.trans up
          (List.Subset.trans (List.subset_append_right _ _) (List.subset_cons_self _ _))), by simp⟩

theorem of_parentsIn {x : Nat} (gs : List D4Group) {l : List Nat} (found : parentsIn x gs = some l) :
    ∃ c ∈ gs, x ∈ c.ids ∧ l ⊆ c.ids ∧ parents x c = some l := by
  cases gs with
  | nil =>
      rw [parentsIn] at found
      cases found
  | cons g gs =>
      rw [parentsIn] at found
      rcases Option.or_eq_some_iff.mp found with here | ⟨-, rest⟩
      · obtain ⟨mem, sub⟩ := of_parents g here
        exact ⟨g, List.mem_cons_self, mem, sub, here⟩
      · obtain ⟨c, there, inside⟩ := of_parentsIn gs rest
        exact ⟨c, List.mem_cons_of_mem _ there, inside⟩

end

theorem parentsIn_of_mem {x : Nat} {gs : List D4Group} {c : D4Group} (mem : c ∈ gs) {l : List Nat}
    (found : parents x c = some l) : ∃ l', parentsIn x gs = some l' := by
  induction gs with
  | nil => cases mem
  | cons g gs ih =>
      rw [parentsIn]
      cases here : parents x g with
      | some l' => exact ⟨l', rfl⟩
      | none =>
          rcases List.mem_cons.mp mem with rfl | mem
          · rw [here] at found
            cases found
          · exact ih mem

/-- A variable of a group has a way up. -/
theorem parents_of_mem {g g' : D4Group} {p : List Name} (at_ : GroupAt g p g') {x : Nat}
    (mem : x ∈ BaseType.idsIn g'.vars) : ∃ l, g.parents x = some l := by
  induction at_ with
  | here g =>
      obtain ⟨l, found⟩ := BaseType.parentsIn_of_mem g.vars mem
      exact ⟨l ++ [g.id], by rw [parents_eq, found]; rfl⟩
  | @child g c g' p there _ ih =>
      obtain ⟨l, found⟩ := ih mem
      obtain ⟨l', below⟩ := parentsIn_of_mem there found
      rw [parents_eq, below]
      cases BaseType.parentsIn x g.vars with
      | none => exact ⟨_, rfl⟩
      | some l' => exact ⟨_, rfl⟩

/-- The part of the way up that lies in what has its own identities. -/
theorem mem_parents_child {g c : D4Group} (mem : c ∈ g.groups) (nodup : g.ids.Nodup) {x y : Nat} {l : List Nat}
    (inside : y ∈ c.ids) (found : g.parents x = some l) :
    (∃ l', c.parents x = some l' ∧ (y ∈ l ↔ y ∈ l')) ∨ (y ∉ l ∧ x ∉ c.ids) := by
  rw [ids_eq, List.nodup_cons, List.nodup_append'] at nodup
  obtain ⟨root, -, rest, apart⟩ := nodup
  have up := idsIn_of_mem mem
  have other : y ≠ g.id := by
    rintro rfl
    exact root (List.mem_append_right _ (up inside))
  rw [parents_eq] at found
  obtain ⟨l', way, rfl⟩ := Option.map_eq_some_iff.mp found
  rw [List.mem_append, List.mem_singleton, or_iff_left other]
  rcases Option.or_eq_some_iff.mp way with here | ⟨-, below⟩
  · obtain ⟨b, there, within, sub, -⟩ := BaseType.of_parentsIn g.vars here
    refine .inr ⟨fun on => ?_, fun on => ?_⟩
    · exact apart (BaseType.idsIn_of_mem there (sub on)) (up inside)
    · exact apart (BaseType.idsIn_of_mem there within) (up on)
  · obtain ⟨d, there, within, sub, found'⟩ := of_parentsIn g.groups below
    by_cases same : d = c
    · subst same
      exact .inl ⟨l', found', Iff.rfl⟩
    · refine .inr ⟨fun on => ?_, fun on => ?_⟩
      · exact same (same_of_ids rest there mem (sub on) inside)
      · exact same (same_of_ids rest there mem within on)

theorem nodup_child {g c : D4Group} (mem : c ∈ g.groups) (nodup : g.ids.Nodup) : c.ids.Nodup := by
  rw [ids_eq, List.nodup_cons] at nodup
  exact nodup_of_mem nodup.2.of_append_right mem

/-- The groups on the way up from a variable are those that have it inside. -/
theorem mem_parents_group {root g : D4Group} {p : List Name} (at_ : GroupAt root p g) (nodup : root.ids.Nodup) {x : Nat}
    {l : List Nat} (found : root.parents x = some l) : g.id ∈ l ↔ x ∈ g.ids := by
  induction at_ generalizing l with
  | here g =>
      have inside := (of_parents g found).1
      rw [parents_eq] at found
      obtain ⟨l', -, rfl⟩ := Option.map_eq_some_iff.mp found
      exact iff_of_true (by simp) inside
  | @child root c g p mem below ih =>
      have within := ids_of_groupAt below
      rcases mem_parents_child mem nodup (within (id_mem g)) found with ⟨l', found', same⟩ | ⟨off, out⟩
      · exact same.trans (ih (nodup_child mem nodup) found')
      · exact iff_of_false off fun there => out (within there)

/-- And so are the variables. -/
theorem mem_parents_var {root g : D4Group} {p : List Name} (at_ : GroupAt root p g) (nodup : root.ids.Nodup)
    {q : List Step} {y : BaseType} (node : NodeAt g.vars q y) {x : Nat} {l : List Nat} (found : root.parents x = some l) :
    y.id ∈ l ↔ x ∈ y.ids ∧ y.id ≠ x := by
  have inside := BaseType.ids_of_nodeAt node
  induction at_ generalizing l with
  | here g =>
      rw [ids_eq, List.nodup_cons, List.nodup_append'] at nodup
      obtain ⟨root, own, -, apart⟩ := nodup
      have other : y.id ≠ g.id := by
        intro same
        exact root (List.mem_append_left _ (same ▸ inside (BaseType.id_mem y)))
      rw [parents_eq] at found
      obtain ⟨l', way, rfl⟩ := Option.map_eq_some_iff.mp found
      rw [List.mem_append, List.mem_singleton, or_iff_left other]
      rcases Option.or_eq_some_iff.mp way with here | ⟨-, below⟩
      · obtain ⟨b, there, within, sub, found'⟩ := BaseType.of_parentsIn g.vars here
        obtain ⟨c, mem, rest, -, below⟩ := node
        by_cases same : b = c
        · subst same
          exact BaseType.mem_parents below (BaseType.nodup_of_mem own mem) found'
        · have apart : ∀ z ∈ b.ids, z ∉ y.ids := by
            intro z one two
            exact same (BaseType.same_of_ids own there mem one (BaseType.ids_of_below below two))
          exact iff_of_false (fun on => apart _ (sub on) (BaseType.id_mem y)) fun both => apart _ within both.1
      · obtain ⟨d, there, within, sub, -⟩ := of_parentsIn g.groups below
        have up := idsIn_of_mem there
        exact iff_of_false (fun on => apart (inside (BaseType.id_mem y)) (up (sub on)))
          fun both => apart (inside both.1) (up within)
  | @child root c g p mem below ih =>
      have within := List.Subset.trans (vars_subset g) (ids_of_groupAt below)
      rcases mem_parents_child mem nodup (within (inside (BaseType.id_mem y))) found with ⟨l', found', same⟩ | ⟨off, out⟩
      · exact same.trans (ih (nodup_child mem nodup) node found' inside)
      · exact iff_of_false off fun both => out (within (inside both.1))

end D4Group

/-! ## What clauses send -/

namespace D4ConstraintEvaluator

section

variable {h h' : Heap} {a k : Nat} {name : Name}

theorem shareDimension_sendP {dim : Nat} (ok : shareDimension h a k dim = .ok h') : h'.sendP = h.sendP := by
  unfold shareDimension at ok
  split at ok
  · obtain ⟨array, -, last⟩ := of_bind_ok ok
    obtain rfl := Except.ok.inj last
    rfl
  · cases ok

theorem sliceLocally_sendP {i : Index} (ok : sliceLocally h a k i = .ok h') : h'.sendP = h.sendP := by
  unfold sliceLocally at ok
  split at ok
  · cases ok
  · obtain ⟨sliced, -, ok⟩ := of_bind_ok ok
    obtain ⟨array, -, last⟩ := of_bind_ok ok
    obtain rfl := Except.ok.inj last
    rfl

theorem indexDimension_sendP {i : Index} (ok : indexDimension h a name k i = .ok h') : h'.sendP = h.sendP := by
  unfold indexDimension at ok
  split at ok
  · cases ok
  split at ok
  · cases ok
  split at ok
  · cases ok
  split at ok
  · split at ok
    · exact shareDimension_sendP ok
    · exact sliceLocally_sendP ok
  · exact sliceLocally_sendP ok

theorem indexDimensions_sendP {indexes : List Index} (ok : indexDimensions h a name k indexes = .ok h') :
    h'.sendP = h.sendP := by
  induction indexes generalizing h k with
  | nil => rw [Except.ok.inj ok]
  | cons i indexes ih =>
      obtain ⟨h₁, first, rest⟩ := of_bind_ok ok
      exact (ih rest).trans (indexDimension_sendP first)

theorem shareDimensions_sendP {ds : List Dimension} (ok : shareDimensions h a k ds = .ok h') : h'.sendP = h.sendP := by
  induction ds generalizing h k with
  | nil => rw [Except.ok.inj ok]
  | cons d ds ih =>
      rw [shareDimensions] at ok
      split at ok
      · exact ih ok
      · obtain ⟨h₁, first, rest⟩ := of_bind_ok ok
        exact (ih rest).trans (shareDimension_sendP first)

theorem mark_array_variable_sendP {indexes : List Index} (ok : mark_array_variable h a name indexes = .ok h') :
    h'.sendP = h.sendP := by
  unfold mark_array_variable at ok
  split at ok
  · exact shareDimensions_sendP ok
  · split at ok
    · cases ok
    · exact indexDimensions_sendP ok

mutual

theorem searchVar_sendP (b : BaseType) {h h' : Heap} (ok : searchVar b h = .ok h') : h'.sendP = h.sendP := by
  cases b with
  | simple =>
      rw [searchVar] at ok
      rw [Except.ok.inj ok]
  | array =>
      rw [searchVar] at ok
      exact mark_array_variable_sendP ok
  | constructor id name kind vars =>
      rw [searchVar] at ok
      exact searchVars_sendP vars ok

theorem searchVars_sendP (vars : List BaseType) {h h' : Heap} (ok : searchVars vars h = .ok h') :
    h'.sendP = h.sendP := by
  cases vars with
  | nil =>
      rw [searchVars] at ok
      rw [Except.ok.inj ok]
  | cons b bs =>
      rw [searchVars] at ok
      obtain ⟨h₁, first, rest⟩ := of_bind_ok ok
      exact (searchVars_sendP bs rest).trans (searchVar_sendP b first)

end

theorem mark_arrays_sendP {btp : BaseType} {indexes : List Index} (ok : mark_arrays h indexes btp = .ok h') :
    h'.sendP = h.sendP := by
  cases btp with
  | simple => rw [Except.ok.inj ok]
  | constructor id name kind vars => exact searchVars_sendP vars ok
  | array id name decl proto =>
      obtain ⟨h₁, first, rest⟩ := of_bind_ok ok
      cases proto with
      | constructor id' name' kind vars => exact (searchVars_sendP vars rest).trans (mark_array_variable_sendP first)
      | simple | array =>
          rw [← Except.ok.inj rest]
          exact mark_array_variable_sendP first

theorem openFields_sendP {btp top : BaseType} {indexes : List Index} (ok : openFields h btp indexes = .ok (h', top)) :
    h'.sendP = h.sendP := by
  cases btp with
  | simple =>
      simp only [openFields] at ok
      split at ok <;> cases ok
  | constructor =>
      simp only [openFields] at ok
      split at ok
      · rw [(Prod.mk.inj (Except.ok.inj ok)).1]
      · cases ok
  | array id name decl proto =>
      simp only [openFields] at ok
      split at ok
      · split at ok
        · obtain ⟨h₁, marked, last⟩ := of_bind_ok ok
          rw [← (Prod.mk.inj (Except.ok.inj last)).1]
          exact mark_array_variable_sendP marked
        · cases ok
      · obtain ⟨h₁, marked, last⟩ := of_bind_ok ok
        split at last
        · rw [← (Prod.mk.inj (Except.ok.inj last)).1]
          exact mark_array_variable_sendP marked
        · cases last

end

/-- The variables that a clause names without fields. -/
inductive Names (root : D4Group) : Option BaseType → Clause → BaseType → Prop where
  | named {top : Option BaseType} {id : Name} {indexes : List Subscript} {filter : List Predicate} {btp : BaseType}
      (found : lookup root top id = .ok btp) : Names root top (.subset id indexes filter) btp
  | field {top : Option BaseType} {id : Name} {indexes : List Subscript} {cs : List Clause} {c : Clause}
      {filter : List Predicate} {btp b : BaseType} (found : lookup root top id = .ok btp) (mem : c ∈ cs)
      (names : Names root (some (fieldsOf btp indexes)) c b) : Names root top (.fields id indexes cs filter) b

/-- What a clause sends: the variables that it names, all in them and all around them. -/
def Sends (root : D4Group) (top : Option BaseType) (c : Clause) (x : Nat) : Prop :=
  ∃ b, Names root top c b ∧ (x ∈ b.ids ∨ x ∈ (root.parents b.id).getD [])

variable {rvalue : Name → Except String Unit} {root : D4Group}

theorem mark_variable_sendP {h h' : Heap} {btp : BaseType} {indexes : List Index}
    (ok : mark_variable root h btp indexes = .ok h') (x : Nat) :
    x ∈ h'.sendP ↔ x ∈ h.sendP ∨ x ∈ btp.ids ∨ x ∈ (root.parents btp.id).getD [] := by
  obtain ⟨h₁, marked, last⟩ := of_bind_ok ok
  obtain rfl := Except.ok.inj last
  have same := mark_arrays_sendP marked
  simp only [Heap.send] at same ⊢
  rw [same, List.mem_append, List.mem_append]
  tauto

mutual

theorem clause_sendP (c : Clause) {top : Option BaseType} {h h' : Heap} (ok : clause rvalue root top c h = .ok h')
    (x : Nat) : x ∈ h'.sendP ↔ x ∈ h.sendP ∨ Sends root top c x := by
  cases c with
  | subset id indexes filter =>
      rw [clause] at ok
      obtain ⟨is, -, ok⟩ := of_bind_ok ok
      obtain ⟨btp, found, ok⟩ := of_bind_ok ok
      have marked : ∃ h₁, mark_variable root h btp is = .ok h₁ ∧ h₁ = h' := by
        split at ok
        · cases ok
        · cases ok
        · obtain ⟨h₁, marked, ok⟩ := of_bind_ok ok
          obtain ⟨-, -, last⟩ := of_bind_ok ok
          exact ⟨h₁, marked, Except.ok.inj last⟩
      obtain ⟨h₁, marked, rfl⟩ := marked
      rw [mark_variable_sendP marked]
      refine or_congr_right ⟨fun there => ⟨btp, .named found, there⟩, ?_⟩
      rintro ⟨b, names, there⟩
      cases names with
      | named found' =>
          obtain rfl := Except.ok.inj (found.symm.trans found')
          exact there
  | fields id indexes cs filter =>
      rw [clause] at ok
      obtain ⟨is, read, ok⟩ := of_bind_ok ok
      obtain ⟨btp, found, ok⟩ := of_bind_ok ok
      obtain ⟨⟨h₁, top'⟩, opened, ok⟩ := of_bind_ok ok
      obtain ⟨h₂, inside, ok⟩ := of_bind_ok ok
      obtain ⟨-, -, last⟩ := of_bind_ok ok
      obtain rfl := Except.ok.inj last
      obtain ⟨rfl, -⟩ := openFields_evaluates opened read
      rw [clauses_sendP cs inside, openFields_sendP opened]
      refine or_congr_right ⟨?_, ?_⟩
      · rintro ⟨c, mem, b, names, there⟩
        exact ⟨b, .field found mem names, there⟩
      · rintro ⟨b, names, there⟩
        cases names with
        | field found' mem names =>
            obtain rfl := Except.ok.inj (found.symm.trans found')
            exact ⟨_, mem, b, names, there⟩

theorem clauses_sendP (cs : List Clause) {top : Option BaseType} {h h' : Heap}
    (ok : clauses rvalue root top cs h = .ok h') (x : Nat) :
    x ∈ h'.sendP ↔ x ∈ h.sendP ∨ ∃ c ∈ cs, Sends root top c x := by
  cases cs with
  | nil =>
      rw [clauses] at ok
      rw [Except.ok.inj ok]
      simp
  | cons c cs =>
      rw [clauses] at ok
      obtain ⟨h₁, first, rest⟩ := of_bind_ok ok
      rw [clauses_sendP cs rest, clause_sendP c first, or_assoc, List.exists_mem_cons_iff]

end

theorem slice_dimension_sendP {h h' : Heap} {id : Name} {dim : Nat} {i : Index}
    (ok : slice_dimension h id dim i = .ok h') : h'.sendP = h.sendP := by
  unfold slice_dimension at ok
  split at ok
  · cases ok
  split at ok
  · cases ok
  split at ok
  · cases ok
  obtain rfl := Except.ok.inj ok
  rfl

theorem dimensions_sendP {ds : List (Name × Subscript)} {h h' : Heap} (ok : dimensions root ds h = .ok h') :
    h'.sendP = h.sendP := by
  induction ds generalizing h with
  | nil => rw [Except.ok.inj ok]
  | cons d ds ih =>
      obtain ⟨id, i⟩ := d
      obtain ⟨h₁, first, rest⟩ := of_bind_ok ok
      obtain ⟨index, -, first⟩ := of_bind_ok first
      obtain ⟨dim, -, first⟩ := of_bind_ok first
      refine (ih rest).trans ?_
      cases dim with
      | none => cases first
      | some dim => exact slice_dimension_sendP first

/-- What is to be sent after an accepted constraint. -/
theorem parse_sendP {h h' : Heap} {expr : Expression} (ok : parse rvalue root h expr = .ok h') (x : Nat) :
    x ∈ h'.sendP ↔ x ∈ h.sendP ∨ ∃ c ∈ expr.clauses, Sends root none c x := by
  obtain ⟨h₁, first, rest⟩ := of_bind_ok ok
  rw [clauses_sendP _ rest, dimensions_sendP first]

/-! ## Where the named variables are -/

theorem lookup_at {top : Option BaseType} {id : Name} {b : BaseType} (found : lookup root top id = .ok b) :
    (∃ t ∈ top, ∃ q, Below t q b) ∨ (top = none ∧ ∃ p g q, GroupAt root p g ∧ NodeAt g.vars q b) := by
  obtain ⟨r, looked, last⟩ := of_bind_ok found
  cases r with
  | none => cases last
  | some b' =>
      obtain rfl := Except.ok.inj last
      cases top with
      | some t =>
          obtain ⟨q, below⟩ := lookupField_at (Except.ok.inj looked)
          exact .inl ⟨t, rfl, q, below⟩
      | none =>
          obtain ⟨p, g, rest, at_, here, -⟩ := D4Group.of_descend looked
          obtain ⟨q, node, -⟩ := lookupVar_at here
          exact .inr ⟨rfl, p, g, q, at_, node⟩

theorem fieldsOf_below (btp : BaseType) (indexes : List Subscript) : ∃ q, Below btp q (fieldsOf btp indexes) := by
  cases btp with
  | simple | constructor => exact ⟨[], .here _⟩
  | array id name decl proto =>
      rw [fieldsOf]
      split
      · exact ⟨[], .here _⟩
      · exact ⟨[.element], .element (.here _)⟩

theorem names_below {top : Option BaseType} {c : Clause} {b : BaseType} (names : Names root top c b) {t : BaseType}
    (mem : t ∈ top) : ∃ q, Below t q b := by
  induction names generalizing t with
  | named found =>
      rcases lookup_at found with ⟨t', mem', there⟩ | ⟨none_, -⟩
      · obtain rfl := Option.some.inj (mem.symm.trans mem')
        exact there
      · rw [none_] at mem
        cases mem
  | @field top id indexes cs c filter btp b found _ _ ih =>
      obtain ⟨q₁, first⟩ := fieldsOf_below btp indexes
      obtain ⟨q₂, rest⟩ := ih rfl
      rcases lookup_at found with ⟨t', mem', q, there⟩ | ⟨none_, -⟩
      · obtain rfl := Option.some.inj (mem.symm.trans mem')
        exact ⟨q ++ (q₁ ++ q₂), there.append (first.append rest)⟩
      · rw [none_] at mem
        cases mem

/-- What a clause names is a variable of some group. -/
theorem names_at {c : Clause} {b : BaseType} (names : Names root none c b) :
    ∃ p g q, GroupAt root p g ∧ NodeAt g.vars q b := by
  cases names with
  | named found =>
      rcases lookup_at found with ⟨t, mem, -⟩ | ⟨-, there⟩
      · cases mem
      · exact there
  | @field _ id indexes cs c filter btp b found mem names =>
      rcases lookup_at found with ⟨t, mem, -⟩ | ⟨-, p, g, q, at_, node⟩
      · cases mem
      · obtain ⟨q₁, first⟩ := fieldsOf_below btp indexes
        obtain ⟨q₂, rest⟩ := names_below names rfl
        exact ⟨p, g, q ++ (q₁ ++ q₂), at_, node.append (first.append rest)⟩

theorem names_parents {c : Clause} {b : BaseType} (names : Names root none c b) : ∃ l, root.parents b.id = some l := by
  obtain ⟨p, g, q, at_, node⟩ := names_at names
  exact D4Group.parents_of_mem at_ (BaseType.ids_of_nodeAt node (BaseType.id_mem b))

section

variable {h h' : Heap} {expr : Expression} (ok : parse rvalue root h expr = .ok h') (unmarked : h.sendP = [])
  (nodup : root.ids.Nodup)

/-- A clause of the constraint names the variable. -/
def Named (root : D4Group) (expr : Expression) (b : BaseType) : Prop := ∃ c ∈ expr.clauses, Names root none c b

include ok unmarked in
theorem sent_iff (x : Nat) : x ∈ h'.sendP ↔ ∃ b, Named root expr b ∧ (x ∈ b.ids ∨ x ∈ (root.parents b.id).getD []) := by
  rw [parse_sendP ok, unmarked, or_iff_right List.not_mem_nil]
  constructor
  · rintro ⟨c, mem, b, names, there⟩
    exact ⟨b, ⟨c, mem, names⟩, there⟩
  · rintro ⟨b, ⟨c, mem, names⟩, there⟩
    exact ⟨c, mem, b, names, there⟩

include nodup in
theorem group_not_inside {p : List Name} {g : D4Group} (at_ : GroupAt root p g) {p' : List Name} {g' : D4Group}
    (at_' : GroupAt root p' g') : g.id ∉ BaseType.idsIn g'.vars := by
  induction at_' generalizing p with
  | here g' =>
      rw [D4Group.ids_eq, List.nodup_cons, List.nodup_append'] at nodup
      obtain ⟨root, -, -, apart⟩ := nodup
      intro inside
      cases at_ with
      | here => exact root (List.mem_append_left _ inside)
      | child mem below => exact apart inside (D4Group.idsIn_of_mem mem (D4Group.ids_of_groupAt below (D4Group.id_mem g)))
  | @child root c g' p' mem below ih =>
      intro inside
      have within := D4Group.ids_of_groupAt below (D4Group.vars_subset g' inside)
      have whole := nodup
      rw [D4Group.ids_eq, List.nodup_cons, List.nodup_append'] at nodup
      obtain ⟨root, -, rest, -⟩ := nodup
      cases at_ with
      | here => exact root (List.mem_append_right _ (D4Group.idsIn_of_mem mem within))
      | child mem' below' =>
          obtain rfl := D4Group.same_of_ids rest mem' mem (D4Group.ids_of_groupAt below' (D4Group.id_mem g)) within
          exact ih (D4Group.nodup_child mem whole) below' inside

include ok unmarked nodup

/-- A group is to be sent when a clause names a variable in it. -/
theorem group_sent_iff {p : List Name} {g : D4Group} (at_ : GroupAt root p g) :
    g.id ∈ h'.sendP ↔ ∃ b, Named root expr b ∧ b.id ∈ g.ids := by
  rw [sent_iff ok unmarked]
  refine exists_congr fun b => and_congr_right ?_
  rintro ⟨c, -, names⟩
  obtain ⟨l, way⟩ := names_parents names
  obtain ⟨p', g', q, at_', node⟩ := names_at names
  have outside : g.id ∉ b.ids := fun inside =>
    group_not_inside nodup at_ at_' (BaseType.ids_of_nodeAt node inside)
  rw [way, or_iff_right outside]
  exact D4Group.mem_parents_group at_ nodup way

/-- A variable is to be sent when a clause names it, something that it is in, or something in it. -/
theorem var_sent_iff {p : List Name} {g : D4Group} (at_ : GroupAt root p g) {q : List Step} {y : BaseType}
    (node : NodeAt g.vars q y) : y.id ∈ h'.sendP ↔ ∃ b, Named root expr b ∧ (y.id ∈ b.ids ∨ b.id ∈ y.ids) := by
  rw [sent_iff ok unmarked]
  refine exists_congr fun b => and_congr_right ?_
  rintro ⟨c, -, names⟩
  obtain ⟨l, way⟩ := names_parents names
  rw [way, Option.getD_some, D4Group.mem_parents_var at_ nodup node way]
  constructor
  · rintro (within | ⟨inside, -⟩)
    · exact .inl within
    · exact .inr inside
  · rintro (within | inside)
    · exact .inl within
    · by_cases same : y.id = b.id
      · exact .inl (same ▸ BaseType.id_mem b)
      · exact .inr ⟨inside, same⟩

end

end D4ConstraintEvaluator

end Libdap.Dap4
