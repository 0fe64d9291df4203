import Libdap.Dap4.LookupVar

/-! # Lookups and names

Each lookup finds what a fully qualified name belongs to, exactly when the path
to it has a form that the lookup takes apart where it was put together. Two of
the four look no further than one level below the root.
-/

namespace Libdap.Dap4

/-- The groups below a group, with the names on the way. -/
inductive GroupAt : D4Group → List Name → D4Group → Prop where
  | here (g : D4Group) : GroupAt g [] g
  | child {g c g' : D4Group} {p : List Name} (mem : c ∈ g.groups) (below : GroupAt c p g') :
      GroupAt g (c.name :: p) g'

/-- Group names with a slash behind each. -/
def joined (p : List Name) (rest : Name) : Name := p.foldr (fun name path => name ++ '/' :: path) rest

@[simp]
theorem joined_nil (rest : Name) : joined [] rest = rest := rfl

@[simp]
theorem joined_cons (name : Name) (p : List Name) (rest : Name) :
    joined (name :: p) rest = name ++ '/' :: joined p rest := rfl

theorem joined_append (p p' : List Name) (rest : Name) : joined (p ++ p') rest = joined p (joined p' rest) :=
  List.foldr_append

theorem joined_text (p : List Name) (rest behind : Name) : joined p (rest ++ behind) = joined p rest ++ behind := by
  induction p with
  | nil => rfl
  | cons name p ih => rw [joined_cons, joined_cons, ih, List.append_assoc, List.cons_append]

theorem ne_slash_of_not_mem {name : Name} (plain : '/' ∉ name) : name ≠ ['/'] := by
  rintro rfl
  exact plain List.mem_cons_self

theorem group_FQN (p : List Name) (plain : ∀ name ∈ p, '/' ∉ name) :
    D4Group.FQN (p.reverse ++ [['/']]) = '/' :: joined p [] := by
  induction p using List.reverseRecOn with
  | nil => rfl
  | append_singleton p name ih =>
      have before : ∀ n ∈ p, '/' ∉ n := fun n mem => plain n (List.mem_append_left _ mem)
      have other := ne_slash_of_not_mem (plain name (by simp))
      rw [List.reverse_append, List.reverse_singleton, List.singleton_append, List.cons_append, D4Group.FQN,
        if_neg other, ih before, joined_append, List.cons_append, List.cons_append, ← joined_text,
        ← joined_text, List.nil_append]
      rfl

theorem dim_FQN (name : Name) (p : List Name) (plain : ∀ name ∈ p, '/' ∉ name) :
    fully_qualified_name name (p.reverse ++ [['/']]) = '/' :: joined p name := by
  induction p using List.reverseRecOn generalizing name with
  | nil => rfl
  | append_singleton p group ih =>
      have before : ∀ n ∈ p, '/' ∉ n := fun n mem => plain n (List.mem_append_left _ mem)
      have other := ne_slash_of_not_mem (plain group (by simp))
      rw [List.reverse_append, List.reverse_singleton, List.singleton_append, List.cons_append,
        fully_qualified_name, if_neg other, ih _ before, joined_append]
      rfl

theorem var_FQN (groups : List Name) {names : List Name} (some_ : names ≠ []) :
    BaseType.FQN groups names.reverse = D4Group.FQN groups ++ dotted names := by
  induction names using List.reverseRecOn with
  | nil => exact absurd rfl some_
  | append_singleton ns n ih =>
      cases empty : ns with
      | nil => rfl
      | cons m ms =>
          have more : ns ≠ [] := by simp [empty]
          rw [← empty, dotted_append more (by simp), List.reverse_append, List.reverse_singleton,
            List.singleton_append, ← List.append_assoc, ← ih more]
          have rest : ns.reverse ≠ [] := by simpa using more
          cases shape : ns.reverse with
          | nil => exact absurd shape rest
          | cons l ls => rfl

theorem joined_no_slash_front {p : List Name} {rest : Name} (plain : ∀ name ∈ p, '/' ∉ name) (last : '/' ∉ rest)
    (some_ : ∀ name ∈ p.head?, name ≠ []) : (joined p rest).head? ≠ some '/' := by
  cases p with
  | nil =>
      intro front
      exact last (List.mem_of_mem_head? front)
  | cons name p =>
      have named : name ≠ [] := some_ name rfl
      have first := plain name List.mem_cons_self
      cases name with
      | nil => exact absurd rfl named
      | cons c cs =>
          intro front
          exact first (by simp only [joined_cons, List.cons_append, List.head?_cons, Option.some_inj] at front; simp [front])

namespace D4Group

theorem lookupPath_ok {name path : Name} (front : path.head? ≠ some '/') : lookupPath name path = .ok path := by
  cases path with
  | nil => rfl
  | cons c cs =>
      have other : c ≠ '/' := by simpa using front
      simp only [lookupPath]
      split
      · rename_i eq
        exact absurd (List.cons.inj eq).1 other
      · rfl

theorem of_lookupPath {name path lpath : Name} (ok : lookupPath name path = .ok lpath) :
    (name = ['/'] ∧ path = '/' :: lpath) ∨ (path.head? ≠ some '/' ∧ lpath = path) := by
  cases path with
  | nil => cases ok; exact .inr ⟨by simp, rfl⟩
  | cons c cs =>
      by_cases slash : c = '/'
      · subst slash
        simp only [lookupPath] at ok
        split at ok
        · rename_i root
          cases ok
          exact .inl ⟨root, rfl⟩
        · cases ok
      · have front : (c :: cs).head? ≠ some '/' := by simpa using slash
        rw [lookupPath_ok front] at ok
        cases ok
        exact .inr ⟨front, rfl⟩

section

variable {α : Type} {here there : D4Group → Name → Option α}

theorem descend_eq (g : D4Group) (path : Name) :
    descend here g path = (lookupPath g.name path).bind fun lpath =>
      match splitFirst '/' lpath with
      | none => .ok (here g lpath)
      | some (grp_name, rest) => descendIn here g.groups grp_name rest := by
  cases g
  rw [descend]
  rfl

theorem of_descendIn {groups : List D4Group} {grp_name path : Name} {x : α}
    (ok : descendIn here groups grp_name path = .ok (some x)) :
    ∃ c ∈ groups, c.name = grp_name ∧ descend here c path = .ok (some x) := by
  induction groups with
  | nil => rw [descendIn] at ok; cases ok
  | cons g groups ih =>
      rw [descendIn] at ok
      split at ok
      · rename_i same
        exact ⟨g, List.mem_cons_self, same, ok⟩
      · obtain ⟨c, mem, rest⟩ := ih ok
        exact ⟨c, List.mem_cons_of_mem g mem, rest⟩

theorem descendIn_of_mem {groups : List D4Group} (names : (groups.map D4Group.name).Nodup) {c : D4Group}
    (mem : c ∈ groups) (path : Name) : descendIn here groups c.name path = descend here c path := by
  induction groups with
  | nil => cases mem
  | cons g groups ih =>
      rw [List.map_cons, List.nodup_cons] at names
      rw [descendIn]
      rcases List.mem_cons.mp mem with rfl | mem
      · rw [if_pos rfl]
      · have other : g.name ≠ c.name := fun same => names.1 (List.mem_map.mpr ⟨c, mem, same.symm⟩)
        rw [if_neg other, ih names.2 mem]

/-- Where a lookup that descends has been. -/
theorem of_descend {g : D4Group} {path : Name} {x : α} (ok : descend here g path = .ok (some x)) :
    ∃ p g' rest, GroupAt g p g' ∧ here g' rest = some x ∧ lookupPath g.name path = .ok (joined p rest) ∧
      '/' ∉ rest ∧ (∀ name ∈ p, '/' ∉ name) ∧ ∀ name ∈ p.tail, name ≠ [] := by
  induction size : path.length using Nat.strong_induction_on generalizing g path with
  | _ n ih =>
  subst size
  rw [descend_eq] at ok
  cases stripped : lookupPath g.name path with
  | error e => rw [stripped] at ok; cases ok
  | ok lpath =>
      rw [stripped] at ok
      simp only [Except.bind] at ok
      cases parts : splitFirst '/' lpath with
      | none =>
          rw [parts] at ok
          exact ⟨[], g, lpath, .here g, Except.ok.inj ok, rfl, splitFirst_eq_none.mp parts, by simp, by simp⟩
      | some both =>
          obtain ⟨grp_name, rest⟩ := both
          rw [parts] at ok
          obtain ⟨c, mem, rfl, found⟩ := of_descendIn ok
          obtain ⟨missing, rfl⟩ := of_splitFirst parts
          have shorter : rest.length < path.length := by
            rcases of_lookupPath stripped with ⟨-, rfl⟩ | ⟨-, rfl⟩ <;> simp <;> omega
          obtain ⟨p, g', last, below, got, path', noSlash, plain, some_⟩ := ih _ shorter found rfl
          have named : lookupPath c.name rest = .ok rest ∧ rest.head? ≠ some '/' := by
            rcases of_lookupPath path' with ⟨root, -⟩ | ⟨front, -⟩
            · exact absurd List.mem_cons_self (root ▸ missing)
            · exact ⟨lookupPath_ok front, front⟩
          obtain rfl := Except.ok.inj (named.1.symm.trans path')
          refine ⟨c.name :: p, g', last, .child mem below, got, rfl, noSlash, ?_, ?_⟩
          · intro name mem'
            rcases List.mem_cons.mp mem' with rfl | mem'
            · exact missing
            · exact plain name mem'
          · intro name mem'
            cases p with
            | nil => cases mem'
            | cons first p =>
                rcases List.mem_cons.mp mem' with rfl | mem'
                · rintro rfl
                  exact named.2 rfl
                · exact some_ name mem'

/-- A lookup that descends goes where the names lead it. -/
theorem descend_joined {g g' : D4Group} {p : List Name} (at_ : GroupAt g p g') {path rest : Name}
    (names : ∀ p g', GroupAt g p g' → (g'.groups.map D4Group.name).Nodup)
    (stripped : lookupPath g.name path = .ok (joined p rest)) (noSlash : '/' ∉ rest)
    (plain : ∀ name ∈ p, '/' ∉ name) (some_ : ∀ name ∈ p.tail, name ≠ []) :
    descend here g path = .ok (here g' rest) := by
  induction at_ generalizing path with
  | here g =>
      rw [descend_eq, stripped, joined_nil]
      simp only [Except.bind, splitFirst_eq_none.mpr noSlash]
  | @child g c g' p mem below ih =>
      have first := plain c.name List.mem_cons_self
      have later : ∀ name ∈ p, '/' ∉ name := fun name mem => plain name (List.mem_cons_of_mem _ mem)
      have front : (joined p rest).head? ≠ some '/' := joined_no_slash_front later noSlash (by
        intro name mem
        exact some_ name (List.mem_of_mem_head? mem))
      rw [descend_eq, stripped, joined_cons]
      simp only [Except.bind, splitFirst_append first]
      rw [descendIn_of_mem (names [] g (.here g)) mem]
      exact ih (fun p g' at_ => names _ g' (.child mem at_)) (lookupPath_ok front) later
        (fun name mem => some_ name (List.mem_of_mem_tail mem))

theorem of_descendOnce {g : D4Group} {path : Name} {x : α} (ok : descendOnce here there g path = .ok (some x)) :
    ∃ lpath, lookupPath g.name path = .ok lpath ∧
      (('/' ∉ lpath ∧ here g lpath = some x) ∨
        ∃ c ∈ g.groups, ∃ rest, '/' ∉ c.name ∧ lpath = c.name ++ '/' :: rest ∧ there c rest = some x) := by
  unfold descendOnce at ok
  cases stripped : lookupPath g.name path with
  | error e => rw [stripped] at ok; cases ok
  | ok lpath =>
      rw [stripped] at ok
      refine ⟨lpath, rfl, ?_⟩
      cases parts : splitFirst '/' lpath with
      | none =>
          simp only [bind, Except.bind, parts] at ok
          exact .inl ⟨splitFirst_eq_none.mp parts, Except.ok.inj ok⟩
      | some both =>
          obtain ⟨grp_name, rest⟩ := both
          simp only [bind, Except.bind, parts] at ok
          obtain ⟨missing, rfl⟩ := of_splitFirst parts
          obtain ⟨c, found, got⟩ := Option.bind_eq_some_iff.mp (Except.ok.inj ok)
          have same : c.name = grp_name := by simpa using List.find?_some found
          subst same
          exact .inr ⟨c, List.mem_of_find?_eq_some found, rest, missing, rfl, got⟩

theorem descendOnce_here {g : D4Group} {path lpath : Name} (stripped : lookupPath g.name path = .ok lpath)
    (noSlash : '/' ∉ lpath) : descendOnce here there g path = .ok (here g lpath) := by
  unfold descendOnce
  rw [stripped]
  simp only [bind, Except.bind, splitFirst_eq_none.mpr noSlash]
  rfl

theorem descendOnce_there {g c : D4Group} (names : (g.groups.map D4Group.name).Nodup) (mem : c ∈ g.groups)
    {path rest : Name} (stripped : lookupPath g.name path = .ok (c.name ++ '/' :: rest))
    (noSlash : '/' ∉ c.name) : descendOnce here there g path = .ok (there c rest) := by
  have found := find_of_nodup D4Group.name names mem
  unfold descendOnce
  rw [stripped]
  simp only [bind, Except.bind, splitFirst_append noSlash, found]
  rfl

end

/-- The name in the declaration of a shared dimension. -/
def dimName (h : Heap) (dim : Nat) : Option Name := h.dims[dim]?.map D4Dimension.name

/-- Names are told apart in each namespace, and nothing is declared in two places. -/
structure WellFormed (h : Heap) (root : D4Group) : Prop where
  slash : root.name = ['/']
  groups : ∀ p g, GroupAt root p g → (g.groups.map D4Group.name).Nodup
  dims : ∀ {p g}, GroupAt root p g → (g.dims.map (dimName h)).Nodup
  enums : ∀ {p g}, GroupAt root p g → (g.enumDefs.map D4EnumDef.name).Nodup
  vars : ∀ {p g}, GroupAt root p g → Distinct g.vars
  ownDims : ∀ {p g p' g' dim}, GroupAt root p g → GroupAt root p' g' → dim ∈ g.dims → dim ∈ g'.dims → p = p'
  ownEnums : ∀ {p g p' g' e}, GroupAt root p g → GroupAt root p' g' → e ∈ g.enumDefs → e ∈ g'.enumDefs → p = p'
  ownVars : ∀ {p g p' g' q q' t}, GroupAt root p g → GroupAt root p' g' → NodeAt g.vars q t →
    NodeAt g'.vars q' t → p = p'

end D4Group

open D4Group

theorem GroupAt.unique {root g g' : D4Group} {p : List Name}
    (names : ∀ p g, GroupAt root p g → (g.groups.map D4Group.name).Nodup) (at_ : GroupAt root p g)
    (at_' : GroupAt root p g') : g = g' := by
  induction at_ generalizing g' with
  | here g => cases at_'; rfl
  | @child g c last p mem below ih =>
      generalize path : c.name :: p = p₁ at at_'
      cases at_' with
      | here => cases path
      | @child _ c' _ p' mem' below' =>
          obtain ⟨same, rfl⟩ := List.cons.inj path
          have found := find_of_nodup D4Group.name (names [] g (.here g)) mem
          have found' := find_of_nodup D4Group.name (names [] g (.here g)) mem'
          rw [same] at found
          obtain rfl := Option.some.inj (found.symm.trans found')
          exact ih (fun p g' at_ => names _ g' (.child mem at_)) below'

/-- The path to a group that a descending lookup takes apart where it was put together. -/
structure PlainPath (p : List Name) : Prop where
  noSlash : ∀ name ∈ p, '/' ∉ name
  some_ : ∀ name ∈ p.tail, name ≠ []

/-- What is found by a lookup that looks in the root and in the groups directly below it. -/
def OneLevel (name : Name) : List Name → Prop
  | [] => '/' ∉ name
  | [group] => '/' ∉ group
  | _ :: _ :: _ => False

theorem joined_inj {p : List Name} {rest rest' : Name} (same : joined p rest = joined p rest') : rest = rest' := by
  induction p with
  | nil => exact same
  | cons name p ih => exact ih (List.cons.inj (List.append_cancel_left same)).2

section

variable {h : Heap} {root g : D4Group} {p : List Name}

theorem lookupPath_root (wf : root.WellFormed h) (path : Name) :
    lookupPath root.name ('/' :: path) = .ok path := by
  rw [wf.slash]
  rfl

theorem find_dim_iff (wf : root.WellFormed h) (at_ : GroupAt root p g) {dim : Nat} (mem : dim ∈ g.dims)
    {s : D4Dimension} (declared : h.dims[dim]? = some s) :
    root.find_dim h (fully_qualified_name s.name (p.reverse ++ [['/']])) = .ok (some dim) ↔
      PlainPath p ∧ '/' ∉ s.name := by
  constructor
  · intro found
    obtain ⟨p', g', rest, at_', got, -, noSlash, plain, some_⟩ := of_descend found
    obtain rfl := wf.ownDims at_' at_ (List.mem_of_find?_eq_some got) mem
    have same : s.name = rest := by simpa [declared] using List.find?_some got
    exact ⟨⟨plain, some_⟩, same ▸ noSlash⟩
  · rintro ⟨⟨plain, some_⟩, noSlash⟩
    have test : (fun d => decide (dimName h d = dimName h dim)) = fun d => h.dims[d]?.any (·.name = s.name) := by
      funext d
      rw [dimName, dimName, declared]
      cases h.dims[d]? <;> simp
    have found := find_of_nodup (dimName h) (wf.dims at_) mem
    rw [test] at found
    rw [dim_FQN s.name p plain]
    refine (descend_joined at_ wf.groups (lookupPath_root wf _) noSlash plain some_).trans ?_
    exact congrArg Except.ok found

theorem find_enum_def_iff (wf : root.WellFormed h) (at_ : GroupAt root p g) {e : D4EnumDef} (mem : e ∈ g.enumDefs) :
    root.find_enum_def (D4Group.FQN (p.reverse ++ [['/']]) ++ e.name) = .ok (some e) ↔ OneLevel e.name p := by
  constructor
  · intro found
    obtain ⟨lpath, -, ⟨noSlash, got⟩ | ⟨c, mem', rest, noSlash, -, got⟩⟩ := of_descendOnce found
    · obtain rfl := wf.ownEnums (.here root) at_ (List.mem_of_find?_eq_some got) mem
      have same : e.name = lpath := by simpa using List.find?_some got
      exact same ▸ noSlash
    · obtain rfl := wf.ownEnums (.child mem' (.here c)) at_ (List.mem_of_find?_eq_some got) mem
      exact noSlash
  · intro level
    have found := find_of_nodup D4EnumDef.name (wf.enums at_) mem
    cases at_ with
    | here =>
        exact (descendOnce_here (lookupPath_root wf e.name) level).trans (congrArg Except.ok found)
    | @child _ c _ p mem' below =>
        cases below with
        | child => exact False.elim level
        | here =>
            rw [group_FQN [g.name] (by simpa [OneLevel] using level)]
            have path : joined [g.name] [] ++ e.name = g.name ++ '/' :: e.name := by simp
            rw [List.cons_append, path]
            exact (descendOnce_there (wf.groups [] root (.here root)) mem' (lookupPath_root wf _) level).trans
              (congrArg Except.ok found)

theorem var_path (plain : ∀ name ∈ p, '/' ∉ name) {q : List Step} (some_ : Step.names q ≠ []) :
    BaseType.FQN (p.reverse ++ [['/']]) (Step.names q).reverse = '/' :: joined p (dotted (Step.names q)) := by
  rw [var_FQN _ some_, group_FQN p plain, List.cons_append, ← joined_text, List.nil_append]

theorem find_var_iff (wf : root.WellFormed h) (at_ : GroupAt root p g) {q : List Step} {t : BaseType}
    (declared : Declared g.vars q t) :
    root.find_var (BaseType.FQN (p.reverse ++ [['/']]) (Step.names q).reverse) = .ok (some t) ↔
      PlainPath p ∧ '/' ∉ dotted (Step.names q) ∧ '%' ∉ dotted (Step.names q) ∧ Unhidden g.vars q := by
  have names := declared.node.names_ne_nil
  rw [← lookupVar_iff (wf.vars at_) declared]
  constructor
  · intro found
    obtain ⟨p', g', rest, at_', got, stripped, noSlash, plain, some_⟩ := of_descend found
    obtain ⟨q', node, -⟩ := lookupVar_at got
    obtain rfl := wf.ownVars at_' at_ node declared.node
    obtain rfl := GroupAt.unique wf.groups at_ at_'
    rw [var_path plain names, lookupPath_root wf] at stripped
    obtain rfl := joined_inj (Except.ok.inj stripped)
    exact ⟨⟨plain, some_⟩, noSlash, got⟩
  · rintro ⟨⟨plain, some_⟩, noSlash, got⟩
    rw [var_path plain names]
    refine (descend_joined at_ wf.groups (lookupPath_root wf _) noSlash plain some_).trans ?_
    exact congrArg Except.ok got

theorem find_map_source_eq (g : D4Group) (path : Name) (id decl : Nat) (name : Name) (proto : BaseType) :
    g.find_map_source path = .ok (some (.array id name decl proto)) ↔
      g.m_find_map_source_helper path = .ok (some (.array id name decl proto)) := by
  unfold find_map_source
  cases g.m_find_map_source_helper path with
  | error e => simp [bind, Except.bind]
  | ok found =>
      cases found with
      | none => simp [bind, Except.bind, pure, Except.pure]
      | some t => cases t <;> simp [bind, Except.bind, pure, Except.pure]

theorem find_map_source_iff (wf : root.WellFormed h) (at_ : GroupAt root p g) {q : List Step} {id decl : Nat}
    {name : Name} {proto : BaseType} (declared : Declared g.vars q (.array id name decl proto)) :
    root.find_map_source (BaseType.FQN (p.reverse ++ [['/']]) (Step.names q).reverse) =
        .ok (some (.array id name decl proto)) ↔
      OneLevel (dotted (Step.names q)) p ∧ '%' ∉ dotted (Step.names q) ∧ Unhidden g.vars q := by
  have names := declared.node.names_ne_nil
  rw [find_map_source_eq, ← lookupVar_iff (wf.vars at_) declared]
  constructor
  · intro found
    obtain ⟨lpath, stripped, ⟨noSlash, got⟩ | ⟨c, mem', rest, noSlash, rfl, got⟩⟩ := of_descendOnce found
    · obtain ⟨q', node, -⟩ := lookupVar_at got
      obtain rfl := wf.ownVars (.here root) at_ node declared.node
      obtain rfl := GroupAt.unique wf.groups at_ (.here root)
      rw [var_path (p := []) (by simp) names, lookupPath_root wf] at stripped
      obtain rfl := Except.ok.inj stripped
      exact ⟨noSlash, got⟩
    · obtain ⟨q', node, -⟩ := lookupVar_at got
      have at_' : GroupAt root [c.name] c := .child mem' (.here c)
      obtain rfl := wf.ownVars at_' at_ node declared.node
      obtain rfl := GroupAt.unique wf.groups at_ at_'
      rw [var_path (by simpa using noSlash) names, lookupPath_root wf] at stripped
      obtain rfl := joined_inj (p := [g.name]) (Except.ok.inj stripped)
      exact ⟨noSlash, got⟩
  · rintro ⟨level, got⟩
    cases at_ with
    | here =>
        rw [var_path (p := []) (by simp) names]
        exact (descendOnce_here (lookupPath_root wf _) level).trans (congrArg Except.ok got)
    | @child _ c _ p mem' below =>
        cases below with
        | child => exact False.elim level
        | here =>
            rw [var_path (p := [g.name]) (by simpa [OneLevel] using level) names]
            exact (descendOnce_there (wf.groups [] root (.here root)) mem' (lookupPath_root wf _) level).trans
              (congrArg Except.ok got)

/-- The lookups find what is declared in a group under its fully qualified name. -/
def LookupsInvert (h : Heap) (root : D4Group) (p : List Name) (g : D4Group) : Prop :=
  (∀ dim ∈ g.dims, ∀ s ∈ h.dims[dim]?,
    root.find_dim h (fully_qualified_name s.name (p.reverse ++ [['/']])) = .ok (some dim)) ∧
  (∀ e ∈ g.enumDefs, root.find_enum_def (D4Group.FQN (p.reverse ++ [['/']]) ++ e.name) = .ok (some e)) ∧
  (∀ q t, Declared g.vars q t →
    root.find_var (BaseType.FQN (p.reverse ++ [['/']]) (Step.names q).reverse) = .ok (some t)) ∧
  (∀ q id name decl proto, Declared g.vars q (.array id name decl proto) →
    root.find_map_source (BaseType.FQN (p.reverse ++ [['/']]) (Step.names q).reverse) =
      .ok (some (.array id name decl proto)))

/-- When each lookup finds what it is given the fully qualified name of. -/
theorem lookups_invert_iff (wf : root.WellFormed h) (at_ : GroupAt root p g) :
    (∀ dim ∈ g.dims, ∀ s ∈ h.dims[dim]?,
      (root.find_dim h (fully_qualified_name s.name (p.reverse ++ [['/']])) = .ok (some dim) ↔
        PlainPath p ∧ '/' ∉ s.name)) ∧
    (∀ e ∈ g.enumDefs,
      (root.find_enum_def (D4Group.FQN (p.reverse ++ [['/']]) ++ e.name) = .ok (some e) ↔ OneLevel e.name p)) ∧
    (∀ q t, Declared g.vars q t →
      (root.find_var (BaseType.FQN (p.reverse ++ [['/']]) (Step.names q).reverse) = .ok (some t) ↔
        PlainPath p ∧ '/' ∉ dotted (Step.names q) ∧ '%' ∉ dotted (Step.names q) ∧ Unhidden g.vars q)) ∧
    (∀ q id name decl proto, Declared g.vars q (.array id name decl proto) →
      (root.find_map_source (BaseType.FQN (p.reverse ++ [['/']]) (Step.names q).reverse) =
          .ok (some (.array id name decl proto)) ↔
        OneLevel (dotted (Step.names q)) p ∧ '%' ∉ dotted (Step.names q) ∧ Unhidden g.vars q)) :=
  ⟨fun _ mem _ declared => find_dim_iff wf at_ mem declared, fun _ mem => find_enum_def_iff wf at_ mem,
    fun _ _ declared => find_var_iff wf at_ declared,
    fun _ _ _ _ _ declared => find_map_source_iff wf at_ declared⟩

end

section

/-- A group that declares one thing of each kind. -/
def deepest : D4Group := .mk 2 ['h'] [0] [⟨3, ['e']⟩] [.array 4 ['x'] 0 (.simple 5 ['x'])] []
def aboveDeepest : D4Group := .mk 1 ['g'] [] [] [] [deepest]
def deep : D4Group := .mk 0 ['/'] [] [] [] [aboveDeepest]
def deepHeap : Heap where
  dims := [.declared ['d'] 2]
  arrays := [⟨[], 2, []⟩]
  sendP := []

theorem at_deep {p : List Name} {g : D4Group} (at_ : GroupAt deep p g) :
    (p = [] ∧ g = deep) ∨ (p = [['g']] ∧ g = aboveDeepest) ∨ (p = [['g'], ['h']] ∧ g = deepest) := by
  cases at_ with
  | here => exact .inl ⟨rfl, rfl⟩
  | child mem below =>
      obtain rfl := List.mem_singleton.mp mem
      cases below with
      | here => exact .inr (.inl ⟨rfl, rfl⟩)
      | child mem below =>
          obtain rfl := List.mem_singleton.mp mem
          cases below with
          | here => exact .inr (.inr ⟨rfl, rfl⟩)
          | child mem => cases mem

theorem at_deepest : GroupAt deep [['g'], ['h']] deepest :=
  .child (c := aboveDeepest) List.mem_cons_self (.child (c := deepest) List.mem_cons_self (.here deepest))

theorem node_deepest {q : List Step} {t : BaseType} (node : NodeAt deepest.vars q t) :
    (q = [.field ['x']] ∧ t = .array 4 ['x'] 0 (.simple 5 ['x'])) ∨
      (q = [.field ['x'], .element] ∧ t = .simple 5 ['x']) := by
  obtain ⟨b, mem, rest, rfl, below⟩ := node
  obtain rfl := List.mem_singleton.mp mem
  cases below with
  | here => exact .inl ⟨rfl, rfl⟩
  | element below =>
      cases below
      exact .inr ⟨rfl, rfl⟩

theorem Distinct.nil : Distinct [] where
  names := List.nodup_nil
  fields := by
    rintro q id name kind fields ⟨b, mem, -⟩
    cases mem
  unique := by
    rintro q q' t ⟨b, mem, -⟩
    cases mem

theorem distinct_deepest : Distinct deepest.vars where
  names := List.nodup_singleton _
  fields := by
    intro q id name kind fields at_
    rcases node_deepest at_ with ⟨-, eq⟩ | ⟨-, eq⟩ <;> cases eq
  unique := by
    intro q q' t at_ at_'
    rcases node_deepest at_ with ⟨rfl, rfl⟩ | ⟨rfl, rfl⟩ <;> rcases node_deepest at_' with ⟨rfl, eq⟩ | ⟨rfl, eq⟩ <;>
      first | rfl | cases eq

theorem deep_wellFormed : deep.WellFormed deepHeap where
  slash := rfl
  groups := by
    intro p g at_
    rcases at_deep at_ with ⟨-, rfl⟩ | ⟨-, rfl⟩ | ⟨-, rfl⟩ <;> simp [deep, aboveDeepest, deepest, D4Group.groups]
  dims := by
    intro p g at_
    rcases at_deep at_ with ⟨-, rfl⟩ | ⟨-, rfl⟩ | ⟨-, rfl⟩ <;> simp [deep, aboveDeepest, deepest, D4Group.dims]
  enums := by
    intro p g at_
    rcases at_deep at_ with ⟨-, rfl⟩ | ⟨-, rfl⟩ | ⟨-, rfl⟩ <;> simp [deep, aboveDeepest, deepest, D4Group.enumDefs]
  vars := by
    intro p g at_
    rcases at_deep at_ with ⟨-, rfl⟩ | ⟨-, rfl⟩ | ⟨-, rfl⟩
    · exact Distinct.nil
    · exact Distinct.nil
    · exact distinct_deepest
  ownDims := by
    intro p g p' g' dim at_ at_' mem mem'
    rcases at_deep at_ with ⟨rfl, rfl⟩ | ⟨rfl, rfl⟩ | ⟨rfl, rfl⟩ <;>
      rcases at_deep at_' with ⟨rfl, rfl⟩ | ⟨rfl, rfl⟩ | ⟨rfl, rfl⟩ <;>
      first | rfl | exact absurd mem List.not_mem_nil | exact absurd mem' List.not_mem_nil
  ownEnums := by
    intro p g p' g' e at_ at_' mem mem'
    rcases at_deep at_ with ⟨rfl, rfl⟩ | ⟨rfl, rfl⟩ | ⟨rfl, rfl⟩ <;>
      rcases at_deep at_' with ⟨rfl, rfl⟩ | ⟨rfl, rfl⟩ | ⟨rfl, rfl⟩ <;>
      first | rfl | exact absurd mem List.not_mem_nil | exact absurd mem' List.not_mem_nil
  ownVars := by
    rintro p g p' g' q q' t at_ at_' ⟨b, mem, -⟩ ⟨b', mem', -⟩
    rcases at_deep at_ with ⟨rfl, rfl⟩ | ⟨rfl, rfl⟩ | ⟨rfl, rfl⟩ <;>
      rcases at_deep at_' with ⟨rfl, rfl⟩ | ⟨rfl, rfl⟩ | ⟨rfl, rfl⟩ <;>
      first | rfl | exact absurd mem List.not_mem_nil | exact absurd mem' List.not_mem_nil

theorem deepDim_found :
    deep.find_dim deepHeap (fully_qualified_name ['d'] [['h'], ['g'], ['/']]) = .ok (some 0) :=
  ((lookups_invert_iff deep_wellFormed at_deepest).1 0 List.mem_cons_self (.declared ['d'] 2) rfl).mpr
    ⟨⟨by simp, by simp⟩, by simp [D4Dimension.declared]⟩

/-- An enumeration two levels below the root is not found. -/
theorem lookups_lose : ¬ ∀ (h : Heap) (root : D4Group), root.WellFormed h → ∀ p g, GroupAt root p g →
    LookupsInvert h root p g := by
  intro claim
  have found := (claim deepHeap deep deep_wellFormed _ _ at_deepest).2.1 ⟨3, ['e']⟩ List.mem_cons_self
  cases found

end

end Libdap.Dap4
