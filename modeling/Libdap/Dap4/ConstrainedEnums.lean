import Libdap.Dap4.ConstrainedDmr
import Libdap.Dap4.Marks

/-! # The declarations of a constrained DMR

A group prints the enumerations for which it finds an Enum that is to be sent, and is
printed itself when something in it is to be sent. Both are less than what the variables
of the response refer to.
-/

namespace Libdap.Dap4

/-- The parts of a response that are about enumerations. -/
inductive PrintedEnum where
  | declaration (enumDef : Nat)
  | reference (enumDef : Nat)
  deriving Repr, DecidableEq

section

-- the enumeration of an Enum, by the identities of both
variable (enumeration : Nat → Option Nat)

/-- The reference that an Enum prints, alone or as the template of an array. -/
def enumRef (id : Nat) : List PrintedEnum := ((enumeration id).map .reference).toList

mutual

def BaseType.print_enums (h : Heap) : BaseType → List PrintedEnum
  | .simple id _ => if id ∈ h.sendP then enumRef enumeration id else []
  | .array id _ _ proto => if id ∈ h.sendP then print_enum_template h proto else []
  | .constructor id _ _ vars => if id ∈ h.sendP then print_enums_in h vars else []

def BaseType.print_enum_template (h : Heap) : BaseType → List PrintedEnum
  | .simple id _ => enumRef enumeration id
  | .constructor _ _ _ vars => print_enums_in h vars
  | .array .. => []

def BaseType.print_enums_in (h : Heap) : List BaseType → List PrintedEnum
  | [] => []
  | b :: bs => print_enums h b ++ print_enums_in h bs

end

/-- An Enum that is to be sent, with this enumeration. -/
def UsesEnum (h : Heap) (enum_def : Nat) : BaseType → Bool
  | .simple id _ => decide (id ∈ h.sendP) && enumeration id == some enum_def
  | .array .. | .constructor .. => false

namespace D4Group

mutual

def find_first_var_that_uses_enumeration (h : Heap) (enum_def : Nat) : D4Group → Option BaseType
  | .mk _ _ _ _ vars groups => (vars.find? (UsesEnum enumeration h enum_def)).or (find_first_in_groups h enum_def groups)

def find_first_in_groups (h : Heap) (enum_def : Nat) : List D4Group → Option BaseType
  | [] => none
  | g :: gs => (find_first_var_that_uses_enumeration h enum_def g).or (find_first_in_groups h enum_def gs)

end

/-- `D4EnumDefs::print_dap4`, with a constraint. -/
def print_enum_defs (h : Heap) (g : D4Group) : List PrintedEnum :=
  (g.enumDefs.filter fun e => (find_first_var_that_uses_enumeration enumeration h e.id g).isSome).map (.declaration ·.id)

mutual

def print_enums (h : Heap) : D4Group → List PrintedEnum
  | .mk id name dims enumDefs vars groups =>
    if printed h (.mk id name dims enumDefs vars groups) then
      print_enum_defs enumeration h (.mk id name dims enumDefs vars groups) ++
        BaseType.print_enums_in enumeration h vars ++ print_enums_in_groups h groups
    else []

def print_enums_in_groups (h : Heap) : List D4Group → List PrintedEnum
  | [] => []
  | g :: gs => print_enums h g ++ print_enums_in_groups h gs

end

end D4Group

/-- The group declares what the response refers to. -/
def DeclaresReferred (h : Heap) (root g : D4Group) : Prop :=
  (∃ dim ∈ g.dims, ∃ decl, .reference decl (some dim) ∈ root.print_dap4 h) ∨
    ∃ e ∈ g.enumDefs, .reference e.id ∈ root.print_enums enumeration h

/-- The response declares what it refers to. -/
structure SelfDeclared (h : Heap) (root : D4Group) : Prop where
  enums : ∀ e, .reference e ∈ root.print_enums enumeration h → .declaration e ∈ root.print_enums enumeration h
  groups : ∀ p g, GroupAt root p g → DeclaresReferred enumeration h root g → Shown h root g

/-- An Enum of a group in this one or of the group itself is to be sent, with this enumeration. -/
def HasEnum (h : Heap) (e : Nat) (g : D4Group) : Prop :=
  ∃ p g' id name, GroupAt g p g' ∧ .simple id name ∈ g'.vars ∧ enumeration id = some e ∧ id ∈ h.sendP

end

/-! ## Lemmas -/

section

variable {enumeration : Nat → Option Nat} {h : Heap} {e : Nat}

theorem usesEnum_iff {b : BaseType} : UsesEnum enumeration h e b = true ↔
    ∃ id name, b = .simple id name ∧ enumeration id = some e ∧ id ∈ h.sendP := by
  cases b with
  | simple id name =>
      simp only [UsesEnum, Bool.and_eq_true, decide_eq_true_eq, beq_iff_eq, BaseType.simple.injEq]
      constructor
      · intro both
        exact ⟨id, name, ⟨rfl, rfl⟩, both.2, both.1⟩
      · rintro ⟨id, name, ⟨rfl, rfl⟩, uses, sent⟩
        exact ⟨sent, uses⟩
  | array | constructor => simp [UsesEnum]

theorem hasEnum_iff {g : D4Group} : HasEnum enumeration h e g ↔
    (∃ b ∈ g.vars, UsesEnum enumeration h e b = true) ∨ ∃ c ∈ g.groups, HasEnum enumeration h e c := by
  constructor
  · rintro ⟨p, g', id, name, at_, mem, uses, sent⟩
    cases at_ with
    | here => exact .inl ⟨_, mem, usesEnum_iff.mpr ⟨id, name, rfl, uses, sent⟩⟩
    | child there below => exact .inr ⟨_, there, _, g', id, name, below, mem, uses, sent⟩
  · rintro (⟨b, mem, uses⟩ | ⟨c, there, p, g', id, name, below, rest⟩)
    · obtain ⟨id, name, rfl, rest⟩ := usesEnum_iff.mp uses
      exact ⟨[], g, id, name, .here g, mem, rest⟩
    · exact ⟨_, g', id, name, .child there below, rest⟩

mutual

theorem find_first_iff (g : D4Group) :
    (g.find_first_var_that_uses_enumeration enumeration h e).isSome ↔ HasEnum enumeration h e g := by
  cases g with
  | mk id name dims enumDefs vars groups =>
      rw [D4Group.find_first_var_that_uses_enumeration, Option.isSome_or, Bool.or_eq_true, List.find?_isSome, hasEnum_iff,
        find_first_in_groups_iff groups]
      rfl

theorem find_first_in_groups_iff (gs : List D4Group) :
    (D4Group.find_first_in_groups enumeration h e gs).isSome ↔ ∃ c ∈ gs, HasEnum enumeration h e c := by
  cases gs with
  | nil => simp [D4Group.find_first_in_groups]
  | cons g gs =>
      rw [D4Group.find_first_in_groups, Option.isSome_or, Bool.or_eq_true, find_first_iff g, find_first_in_groups_iff gs,
        List.exists_mem_cons_iff]

end

theorem not_declaration_of_ref {id : Nat} : .declaration e ∉ enumRef enumeration id := by
  cases enumerated : enumeration id <;> simp [enumRef, enumerated]

mutual

theorem not_declaration_of_print (b : BaseType) : .declaration e ∉ b.print_enums enumeration h := by
  cases b with
  | simple id name =>
      rw [BaseType.print_enums]
      split
      · exact not_declaration_of_ref
      · exact List.not_mem_nil
  | array id name decl proto =>
      rw [BaseType.print_enums]
      split
      · exact not_declaration_of_template proto
      · exact List.not_mem_nil
  | constructor id name kind vars =>
      rw [BaseType.print_enums]
      split
      · exact not_declaration_of_vars vars
      · exact List.not_mem_nil

theorem not_declaration_of_template (b : BaseType) : .declaration e ∉ b.print_enum_template enumeration h := by
  cases b with
  | simple =>
      rw [BaseType.print_enum_template]
      exact not_declaration_of_ref
  | array =>
      rw [BaseType.print_enum_template]
      exact List.not_mem_nil
  | constructor id name kind vars =>
      rw [BaseType.print_enum_template]
      exact not_declaration_of_vars vars

theorem not_declaration_of_vars (vars : List BaseType) : .declaration e ∉ BaseType.print_enums_in enumeration h vars := by
  cases vars with
  | nil =>
      rw [BaseType.print_enums_in]
      exact List.not_mem_nil
  | cons b bs =>
      rw [BaseType.print_enums_in, List.mem_append, not_or]
      exact ⟨not_declaration_of_print b, not_declaration_of_vars bs⟩

end

theorem mem_print_enum_defs {g : D4Group} :
    .declaration e ∈ g.print_enum_defs enumeration h ↔ (∃ d ∈ g.enumDefs, d.id = e) ∧ HasEnum enumeration h e g := by
  rw [D4Group.print_enum_defs, List.mem_map]
  constructor
  · rintro ⟨d, mem, same⟩
    obtain rfl := PrintedEnum.declaration.inj same
    rw [List.mem_filter] at mem
    exact ⟨⟨d, mem.1, rfl⟩, (find_first_iff g).mp mem.2⟩
  · rintro ⟨⟨d, mem, rfl⟩, uses⟩
    exact ⟨d, List.mem_filter.mpr ⟨mem, (find_first_iff g).mpr uses⟩, rfl⟩

mutual

/-- The declarations in the response. -/
theorem mem_print_enums (g : D4Group) : .declaration e ∈ g.print_enums enumeration h ↔
    ∃ g', Shown h g g' ∧ (∃ d ∈ g'.enumDefs, d.id = e) ∧ HasEnum enumeration h e g' := by
  cases g with
  | mk id name dims enumDefs vars groups =>
      rw [D4Group.print_enums]
      split
      · rename_i printed
        rw [List.mem_append, List.mem_append, or_iff_left (not_declaration_of_vars vars), mem_print_enum_defs,
          mem_print_enums_in_groups groups]
        constructor
        · rintro (here | ⟨c, mem, g', shown, rest⟩)
          · exact ⟨_, .here printed, here⟩
          · exact ⟨g', .child printed mem shown, rest⟩
        · rintro ⟨g', shown, rest⟩
          cases shown with
          | here => exact .inl rest
          | child _ mem below => exact .inr ⟨_, mem, g', below, rest⟩
      · rename_i skipped
        refine iff_of_false List.not_mem_nil ?_
        rintro ⟨g', shown, -⟩
        cases shown with
        | here printed => exact skipped printed
        | child printed => exact skipped printed

theorem mem_print_enums_in_groups (gs : List D4Group) : .declaration e ∈ D4Group.print_enums_in_groups enumeration h gs ↔
    ∃ c ∈ gs, ∃ g', Shown h c g' ∧ (∃ d ∈ g'.enumDefs, d.id = e) ∧ HasEnum enumeration h e g' := by
  cases gs with
  | nil => simp [D4Group.print_enums_in_groups]
  | cons g gs =>
      rw [D4Group.print_enums_in_groups, List.mem_append, mem_print_enums g, mem_print_enums_in_groups gs,
        List.exists_mem_cons_iff]

end

end

/-! ## The groups that are shown -/

open D4Group D4ConstraintEvaluator

theorem GroupAt.append {g c d : D4Group} {p q : List Name} (first : GroupAt g p c) (rest : GroupAt c q d) :
    GroupAt g (p ++ q) d := by
  induction first with
  | here => exact rest
  | child mem _ ih => exact .child mem (ih rest)

theorem groupAt_antisymm {g c : D4Group} {p p' : List Name} (down : GroupAt g p c) (back : GroupAt c p' g)
    (nodup : g.ids.Nodup) : c = g := by
  cases down with
  | here => rfl
  | child mem below =>
      rw [ids_eq, List.nodup_cons] at nodup
      have inside := ids_of_groupAt below (ids_of_groupAt back (id_mem g))
      exact absurd (List.mem_append_right _ (idsIn_of_mem mem inside)) nodup.1

theorem ids_of_shown {h : Heap} {g g' : D4Group} (shown : Shown h g g') : g'.ids ⊆ g.ids := by
  induction shown with
  | here => exact List.Subset.refl _
  | @child g _ _ _ mem _ ih =>
      rw [ids_eq g]
      exact List.Subset.trans ih (List.Subset.trans (idsIn_of_mem mem)
        (List.Subset.trans (List.subset_append_right _ _) (List.subset_cons_self _ _)))

theorem groupAt_of_shown {h : Heap} {g g' : D4Group} (shown : Shown h g g') : ∃ p, GroupAt g p g' := by
  induction shown with
  | here => exact ⟨[], .here _⟩
  | child _ mem _ ih =>
      obtain ⟨p, at_⟩ := ih
      exact ⟨_, .child mem at_⟩

/-- A group is shown when every group on the way to it is printed. -/
theorem shown_iff {h : Heap} {root g : D4Group} {p : List Name} (at_ : GroupAt root p g) (nodup : root.ids.Nodup) :
    Shown h root g ↔ ∀ p₁ c p₂, GroupAt root p₁ c → GroupAt c p₂ g → c.printed h := by
  induction at_ with
  | here g =>
      constructor
      · intro shown p₁ c p₂ down back
        obtain rfl := groupAt_antisymm down back nodup
        cases shown with
        | here printed => exact printed
        | child printed => exact printed
      · intro all
        exact .here (all [] g [] (.here g) (.here g))
  | @child root c g p mem below ih =>
      have rest := nodup_child mem nodup
      have own : ∀ c' ∈ root.groups, g.id ∈ c'.ids → c' = c := by
        intro c' mem' inside
        rw [ids_eq, List.nodup_cons] at nodup
        exact same_of_ids nodup.2.of_append_right mem' mem inside (ids_of_groupAt below (id_mem g))
      constructor
      · intro shown p₁ d p₂ down back
        cases shown with
        | here =>
            rw [ids_eq, List.nodup_cons] at nodup
            exact absurd (List.mem_append_right _ (idsIn_of_mem mem (ids_of_groupAt below (id_mem _)))) nodup.1
        | @child _ c' _ printed mem' shown =>
            cases down with
            | here => exact printed
            | @child _ c'' _ _ mem'' down =>
                obtain rfl := own c'' mem'' (ids_of_groupAt down (ids_of_groupAt back (id_mem g)))
                obtain rfl := own c' mem' (ids_of_shown shown (id_mem g))
                exact (ih rest).mp shown _ d p₂ down back
      · intro all
        refine .child (all [] root _ (.here root) (.child mem below)) mem ((ih rest).mpr ?_)
        intro p₁ d p₂ down back
        exact all _ d p₂ (.child mem down) back

/-- What shares an identity with a group is in it. -/
theorem inside_of_shared {root g c : D4Group} {p p' : List Name} (at_ : GroupAt root p g) (at_' : GroupAt root p' c)
    (nodup : root.ids.Nodup) {q : List Step} {b : BaseType} (node : NodeAt g.vars q b) {x : Nat} (mem : x ∈ b.ids)
    (there : x ∈ c.ids) : b.id ∈ c.ids := by
  have inside := BaseType.ids_of_nodeAt node
  induction at_ generalizing p' with
  | here g =>
      cases at_' with
      | here => exact vars_subset _ (inside (BaseType.id_mem b))
      | child mem' below =>
          rw [ids_eq, List.nodup_cons, List.nodup_append'] at nodup
          exact absurd (idsIn_of_mem mem' (ids_of_groupAt below there)) (nodup.2.2.2 (inside mem))
  | @child root d g p mem' below ih =>
      have within := List.Subset.trans (vars_subset g) (ids_of_groupAt below)
      cases at_' with
      | here => exact ids_of_groupAt (.child mem' below) (vars_subset g (inside (BaseType.id_mem b)))
      | @child _ d' _ _ mem'' below' =>
          have rest := nodup
          rw [ids_eq, List.nodup_cons] at rest
          obtain rfl := same_of_ids rest.2.of_append_right mem'' mem' (ids_of_groupAt below' there) (within (inside mem))
          exact ih below' (nodup_child mem' nodup) node inside

/-- A group without a name, or in which a clause names a variable. -/
def Reached (root : D4Group) (expr : Expression) (g : D4Group) : Prop :=
  g.name = [] ∨ g.name = ['/'] ∨ ∃ b, Named root expr b ∧ b.id ∈ g.ids

/-- Every enumeration that is referred to has an Enum among the variables of the group that declares
    it or of a group below, and every group with such a declaration is reached, with those around it. -/
structure Within (enumeration : Nat → Option Nat) (h : Heap) (root : D4Group) (expr : Expression) : Prop where
  enums : ∀ e, .reference e ∈ root.print_enums enumeration h →
    ∃ p g, GroupAt root p g ∧ (∃ d ∈ g.enumDefs, d.id = e) ∧ HasEnum enumeration h e g
  groups : ∀ p g, GroupAt root p g → DeclaresReferred enumeration h root g →
    ∀ p₁ c p₂, GroupAt root p₁ c → GroupAt c p₂ g → Reached root expr c

section

variable {rvalue : Name → Except String Unit} {enumeration : Nat → Option Nat} {root : D4Group} {h h' : Heap}
  {expr : Expression} (ok : parse rvalue root h expr = .ok h') (unmarked : h.sendP = []) (nodup : root.ids.Nodup)

include ok unmarked nodup

theorem printed_iff {p : List Name} {g : D4Group} (at_ : GroupAt root p g) : g.printed h' ↔ Reached root expr g := by
  rw [D4Group.printed, Reached, group_sent_iff ok unmarked nodup at_]

/-- A group with an Enum that is to be sent is shown. -/
theorem shown_of_hasEnum {p : List Name} {g : D4Group} (at_ : GroupAt root p g) {e : Nat}
    (uses : HasEnum enumeration h' e g) : Shown h' root g := by
  rw [shown_iff at_ nodup]
  intro p₁ c p₂ down back
  rw [printed_iff ok unmarked nodup down]
  refine .inr (.inr ?_)
  obtain ⟨p', g', id, name, below, mem, -, sent⟩ := uses
  have within : id ∈ c.ids := by
    apply ids_of_groupAt back
    apply ids_of_groupAt below
    apply vars_subset
    apply BaseType.idsIn_of_mem mem
    exact BaseType.id_mem (.simple id name)
  have node : NodeAt g'.vars [.field name] (.simple id name) := .top mem
  have place := at_.append below
  obtain ⟨b, named, there⟩ := (var_sent_iff ok unmarked nodup place node).mp sent
  refine ⟨b, named, ?_⟩
  rcases there with inside | same
  · obtain ⟨clause, -, names⟩ := named
    obtain ⟨p'', g'', q, at_', node'⟩ := names_at names
    exact inside_of_shared at_' down nodup node' inside within
  · rw [BaseType.ids, List.mem_singleton] at same
    rw [same]
    exact within

/-- When the response declares what it refers to. -/
theorem selfDeclared_exact : SelfDeclared enumeration h' root ↔ Within enumeration h' root expr := by
  constructor
  · intro closed
    refine ⟨?_, ?_⟩
    · intro e referred
      obtain ⟨g, shown, declares, uses⟩ := (mem_print_enums root).mp (closed.enums e referred)
      obtain ⟨p, at_⟩ := groupAt_of_shown shown
      exact ⟨p, g, at_, declares, uses⟩
    · intro p g at_ declares p₁ c p₂ down back
      rw [← printed_iff ok unmarked nodup down]
      exact (shown_iff at_ nodup).mp (closed.groups p g at_ declares) p₁ c p₂ down back
  · intro within
    refine ⟨?_, ?_⟩
    · intro e referred
      obtain ⟨p, g, at_, declares, uses⟩ := within.enums e referred
      exact (mem_print_enums root).mpr ⟨g, shown_of_hasEnum ok unmarked nodup at_ uses, declares, uses⟩
    · intro p g at_ declares
      rw [shown_iff at_ nodup]
      intro p₁ c p₂ down back
      rw [printed_iff ok unmarked nodup down]
      exact within.groups p g at_ declares p₁ c p₂ down back

end

section

/-- A group with an enumeration and this variable. -/
private def withEnum (b : BaseType) : D4Group := .mk 0 ['/'] [] [⟨3, ['e']⟩] [b] []

private def oneList : Heap := ⟨[], [⟨[.ofSize 2 []], 2, []⟩], []⟩

/-- Every Enum has the enumeration. -/
private def ofEnum (_ : Nat) : Option Nat := some 3

private theorem parse_withEnum {b : BaseType} (named : b.name = ['x']) :
    parse anyConstant (withEnum b) oneList (nameX []) = mark_variable (withEnum b) oneList b [] := by
  have there : lookupVar (withEnum b).vars ['x'] = some b := by
    apply lookupVar_found
    simp [withEnum, D4Group.vars, named, www2id_of_not_mem]
  have found : (withEnum b).find_var ['x'] = .ok (lookupVar (withEnum b).vars ['x']) := rfl
  have looked : lookup (withEnum b) none ['x'] = .ok b := by
    rw [lookup, var, found, there]
    rfl
  have one : clause anyConstant (withEnum b) none (.subset ['x'] [] []) oneList = mark_variable (withEnum b) oneList b [] := by
    rw [clause, looked]
    simp only [List.mapM_nil, bind, Except.bind, filters, pure, Except.pure]
    cases mark_variable (withEnum b) oneList b [] <;> rfl
  unfold parse nameX
  simp only [dimensions, clauses, one, bind_pure, pure_bind]

private def enumX : BaseType := .simple 1 ['x']

/-- The enumeration of an Enum in its group is declared. -/
theorem enumX_selfDeclared : ∃ h', parse anyConstant (withEnum enumX) oneList (nameX []) = .ok h' ∧
    SelfDeclared ofEnum h' (withEnum enumX) := by
  have accepted : parse anyConstant (withEnum enumX) oneList (nameX []) = .ok ⟨[], [⟨[.ofSize 2 []], 2, []⟩], [0, 1]⟩ := by
    rw [parse_withEnum rfl]
    rfl
  refine ⟨_, accepted, (selfDeclared_exact accepted rfl (by decide)).mpr ⟨?_, ?_⟩⟩
  · intro e referred
    have printed : (withEnum enumX).print_enums ofEnum ⟨[], [⟨[.ofSize 2 []], 2, []⟩], [0, 1]⟩ =
        [.declaration 3, .reference 3] := by decide
    rw [printed, List.mem_pair] at referred
    obtain rfl := PrintedEnum.reference.inj (referred.resolve_left nofun)
    exact ⟨[], _, .here _, ⟨_, List.mem_cons_self, rfl⟩, [], _, 1, ['x'], .here _, List.mem_cons_self, rfl, by decide⟩
  · intro p g at_ _ p₁ c p₂ down back
    cases down with
    | here => exact .inr (.inl rfl)
    | child mem => cases mem

/-- The search for an Enum misses the template of an array. -/
theorem arrayX_undeclared : ∃ h', parse anyConstant (withEnum arrayX) oneList (nameX []) = .ok h' ∧
    ¬SelfDeclared ofEnum h' (withEnum arrayX) := by
  have accepted : parse anyConstant (withEnum arrayX) oneList (nameX []) = .ok ⟨[], [⟨[.ofSize 2 []], 2, []⟩], [0, 1, 2]⟩ := by
    rw [parse_withEnum rfl]
    rfl
  refine ⟨_, accepted, ?_⟩
  intro closed
  have declared := closed.enums 3 (by decide)
  revert declared
  decide

end

end Libdap.Dap4
