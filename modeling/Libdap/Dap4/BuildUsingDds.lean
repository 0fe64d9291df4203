import Libdap.Dap4.SelfContained
import Libdap.Dap4.Slices

/-! # A DMR made from a DDS

Every variable of the DDS goes to the container that takes its place, unless that has a
variable of the name already; a Grid leaves its maps and its array there. The named
dimensions of the arrays become dimensions of the root group. What the variables are
made from is told by their identities: attributes and Maps are left out.
-/

namespace Libdap.Dap4

/-- What is made beside the variables: the dimensions of the root group. The variables that
    have been passed over, which only the debugging output tells, are kept as well. -/
structure Build where
  h : Heap
  dims : List Nat
  skipped : List Nat
  deriving Repr, DecidableEq

namespace Build

def skip (s : Build) (b : BaseType) : Build := { s with skipped := s.skipped ++ [b.id] }

/-- `add_dim_nocopy` of a new dimension. -/
def add_dim (s : Build) (name : Name) (size : Nat) : Build :=
  { s with h := { s.h with dims := s.h.dims ++ [.declared name size] }, dims := s.dims ++ [s.h.dims.length] }

end Build

/-- The size of a dimension, as an `unsigned long`. -/
def Dimension.ulong (d : Dimension) : Nat := (d.size % 2 ^ 64).toNat

/-- What `Array::transform_to_dap4` does with a dimension of the array with this name. -/
def shareDim (name : Name) (d : Dimension) (s : Build) : Dimension × Build :=
  if d.name = [] then (d, s)
  else
    match D4Dimensions.find_dim s.h s.dims d.name with
    | none => ({ d with dim := some s.h.dims.length }, s.add_dim d.name d.ulong)
    | some dim =>
      if (s.h.dims[dim]?).any (·.size ≠ d.ulong) then
        ({ d with dim := some s.h.dims.length }, s.add_dim (d.name ++ '_' :: name) d.ulong)
      else ({ d with dim := some dim }, s)

def shareDims (name : Name) : List Dimension → Build → List Dimension × Build
  | [], s => ([], s)
  | d :: ds, s =>
    let (d', s) := shareDim name d s
    let (ds', s) := shareDims name ds s
    (d' :: ds', s)

/-- The loop over the dimensions of an array. -/
def shareShape (name : Name) (decl : Nat) (s : Build) : Build :=
  let (shape, s) := shareDims name (s.h.shapeOf decl) s
  { s with h := { s.h with arrays := s.h.arrays.modify decl fun a => { a with shape } } }

section

-- what is added to an identity gives that of the copy, and the variables that are DAP4 already
variable (fresh : Nat) (dap4 : List Nat)

mutual

/-- `transform_to_dap4`, with the variables of the container; without those of the root group,
    the container is the root group. -/
def BaseType.transform_to_dap4 (root : Option (List BaseType)) :
    BaseType → List BaseType → Build → Option (List BaseType × Build)
  | .simple id name, c, s =>
    let (dest, h) := (BaseType.simple id name).ptr_duplicate fresh s.h
    some (c ++ [dest], { s with h })
  | .array id name decl proto, c, s =>
    let (dest, h) := (BaseType.array id name decl proto).ptr_duplicate fresh s.h
    let c := if id ∈ dap4 then c ++ [dest] else c
    -- the copy is the last array
    some (c ++ [dest], shareShape name (h.arrays.length - 1) { s with h })
  | .constructor _ _ .dods_grid_c [], _, _ => none
  | .constructor _ _ .dods_grid_c (data :: maps), c, s => do
    let (c, s) ← grid_maps root maps c s
    let (c, s) ← transform_to_dap4 root data c s
    -- the coverage
    match lookupVar c data.name with
    | some (.array ..) => some (c, s)
    | _ => none
  | .constructor id name .dods_structure_c vars, c, s => do
    let (dest, s) ← transform_members (some (root.getD c)) vars [] s
    some (c ++ [.constructor (fresh + id) name .dods_structure_c dest], s)
  | .constructor id name .dods_sequence_c vars, c, s =>
    if id ∈ dap4 then
      let (dest, h) := (BaseType.constructor id name .dods_sequence_c vars).ptr_duplicate fresh s.h
      some (c ++ [dest], { s with h })
    else do
      let (dest, s) ← transform_members (some (root.getD c)) vars [] s
      some (c ++ [.constructor (fresh + id) name .dods_sequence_c dest], s)

/-- `Constructor::transform_to_dap4`. -/
def BaseType.transform_members (root : Option (List BaseType)) :
    List BaseType → List BaseType → Build → Option (List BaseType × Build)
  | [], c, s => some (c, s)
  | b :: bs, c, s =>
    match lookupVar c b.name with
    | some _ => transform_members root bs c (s.skip b)
    | none => do
      let (c, s) ← transform_to_dap4 root b c s
      transform_members root bs c s

/-- The loop over the maps in `Grid::transform_to_dap4`. -/
def BaseType.grid_maps (root : Option (List BaseType)) :
    List BaseType → List BaseType → Build → Option (List BaseType × Build)
  | [], c, s => some (c, s)
  | m :: ms, c, s =>
    match (lookupVar c m.name).or (lookupVar (root.getD c) m.name) with
    | some _ => grid_maps root ms c (s.skip m)
    | none => do
      let (c, s) ← transform_to_dap4 root m c s
      -- the new variable is taken from the container
      let _ ← lookupVar c m.name
      grid_maps root ms c s

end

/-- `DMR::build_using_dds`, into a DMR without variables. -/
def DMR.build_using_dds (dds : List BaseType) (h : Heap) : Option (List BaseType × Build) :=
  go dds [] ⟨h, [], []⟩
where
  go : List BaseType → List BaseType → Build → Option (List BaseType × Build)
  | [], c, s => some (c, s)
  | b :: bs, c, s =>
    match lookupVar c b.name with
    | some _ => go bs c (s.skip b)
    | none => do
      let (c, s) ← BaseType.transform_to_dap4 fresh dap4 none b c s
      go bs c s

end

/-! ## The dimensions of the root group -/

/-- What dimensions a root group can get: ones with a name of their own, and ones that are
    renamed for a dimension of another size. -/
inductive Shared : List D4Dimension → Prop where
  | nil : Shared []
  | new {l : List D4Dimension} {d : D4Dimension} (shared : Shared l) (unused : ∀ d' ∈ l, d'.name ≠ d.name) :
      Shared (l ++ [d])
  | renamed {l : List D4Dimension} {d d' : D4Dimension} {var : Name} (shared : Shared l) (mem : d' ∈ l)
      (other : d'.size ≠ d.size) (name : d.name = d'.name ++ '_' :: var) : Shared (l ++ [d])

/-- The second of two dimensions with the same name has been renamed. -/
theorem Shared.twice {l : List D4Dimension} (shared : Shared l) {i j : Nat} (before : i < j) {d d' : D4Dimension}
    (first : l[i]? = some d) (second : l[j]? = some d') (same : d.name = d'.name) :
    ∃ c ∈ l.take j, c.size ≠ d'.size ∧ ∃ var, d'.name = c.name ++ '_' :: var := by
  induction shared with
  | nil => cases second
  | @new l last _ unused ih =>
      have bound := (List.getElem?_eq_some_iff.mp second).1
      rw [List.length_append, List.length_singleton] at bound
      rcases Nat.lt_or_ge j l.length with inside | at_
      · rw [List.getElem?_append_left (by omega)] at first second
        rw [List.take_append_of_le_length (by omega)]
        exact ih first second
      · obtain rfl : j = l.length := by omega
        rw [List.getElem?_append_left before] at first
        rw [List.getElem?_concat_length] at second
        obtain rfl := Option.some.inj second
        exact absurd same (unused d (List.mem_of_getElem? first))
  | @renamed l last c var _ mem other name ih =>
      have bound := (List.getElem?_eq_some_iff.mp second).1
      rw [List.length_append, List.length_singleton] at bound
      rcases Nat.lt_or_ge j l.length with inside | at_
      · rw [List.getElem?_append_left (by omega)] at first second
        rw [List.take_append_of_le_length (by omega)]
        exact ih first second
      · obtain rfl : j = l.length := by omega
        rw [List.getElem?_concat_length] at second
        obtain rfl := Option.some.inj second
        rw [List.take_left]
        exact ⟨c, mem, other, var, name⟩

namespace Build

/-- The dimensions of the root group. -/
def root (s : Build) : List D4Dimension := s.dims.filterMap (s.h.dims[·]?)

structure Inv (s : Build) : Prop where
  valid : ∀ dim ∈ s.dims, dim < s.h.dims.length
  shared : Shared s.root

/-- Nothing is taken away. -/
structure Grew (s s' : Build) : Prop where
  arrays : s.h.arrays <+: s'.h.arrays
  declared : s.h.dims <+: s'.h.dims
  dims : s.dims <+: s'.dims

theorem Grew.refl (s : Build) : Grew s s := ⟨List.prefix_rfl, List.prefix_rfl, List.prefix_rfl⟩

theorem Grew.trans {s s' s'' : Build} (first : Grew s s') (then_ : Grew s' s'') : Grew s s'' where
  arrays := first.arrays.trans then_.arrays
  declared := first.declared.trans then_.declared
  dims := first.dims.trans then_.dims

/-- A named dimension points to a dimension of the root group that has its size. -/
def Points (s : Build) (d : Dimension) : Prop :=
  d.name ≠ [] → ∃ dim ∈ s.dims, d.dim = some dim ∧ ∃ d', s.h.dims[dim]? = some d' ∧ d'.size = d.ulong

/-- All dimensions of an array do. -/
def Wired (s : Build) (decl : Nat) : Prop := ∃ a, s.h.arrays[decl]? = some a ∧ ∀ d ∈ a.shape, s.Points d

theorem Points.grew {s s' : Build} {d : Dimension} (points : s.Points d) (grew : Grew s s') : s'.Points d := by
  intro named
  obtain ⟨dim, mem, eq, d', at_, size⟩ := points named
  exact ⟨dim, grew.dims.subset mem, eq, d', kept grew.declared at_, size⟩

theorem Wired.grew {s s' : Build} {decl : Nat} (wired : s.Wired decl) (grew : Grew s s') : s'.Wired decl := by
  obtain ⟨a, at_, points⟩ := wired
  exact ⟨a, kept grew.arrays at_, fun d mem => (points d mem).grew grew⟩

section

variable {s : Build} {name : Name} {size : Nat}

theorem add_dim_grew : Grew s (s.add_dim name size) :=
  ⟨List.prefix_rfl, List.prefix_append _ _, List.prefix_append _ _⟩

theorem root_add_dim (valid : ∀ dim ∈ s.dims, dim < s.h.dims.length) :
    (s.add_dim name size).root = s.root ++ [.declared name size] := by
  have old : s.dims.filterMap ((s.h.dims ++ [D4Dimension.declared name size])[·]?) = s.root :=
    List.filterMap_congr fun dim mem => List.getElem?_append_left (valid dim mem)
  simp [root, add_dim, List.filterMap_append] at old ⊢
  exact old

theorem add_dim_valid (valid : ∀ dim ∈ s.dims, dim < s.h.dims.length) :
    ∀ dim ∈ (s.add_dim name size).dims, dim < (s.add_dim name size).h.dims.length := by
  intro dim mem
  simp only [add_dim, List.length_append, List.length_singleton, List.mem_append, List.mem_singleton] at mem ⊢
  rcases mem with mem | rfl
  · exact Nat.lt_succ_of_lt (valid dim mem)
  · exact Nat.lt_succ_self _

/-- What the pointer to a new dimension leads to. -/
theorem points_add_dim {d : Dimension} (size_eq : d.ulong = size) :
    (s.add_dim name size).Points { d with dim := some s.h.dims.length } := fun _ =>
  ⟨_, List.mem_append_right _ (List.mem_singleton.mpr rfl), rfl, _, List.getElem?_concat_length, size_eq.symm⟩

end

end Build

/-- What has been done for a dimension. -/
theorem shareDim_spec (name : Name) (d : Dimension) {s : Build} (inv : s.Inv) :
    (shareDim name d s).2.h.arrays = s.h.arrays ∧ (shareDim name d s).2.skipped = s.skipped ∧
      Build.Grew s (shareDim name d s).2 ∧ (shareDim name d s).2.Inv ∧
      (shareDim name d s).2.Points (shareDim name d s).1 := by
  unfold shareDim
  split
  · rename_i unnamed
    exact ⟨rfl, rfl, .refl s, inv, fun named => absurd unnamed named⟩
  · split
    · rename_i unused
      refine ⟨rfl, rfl, Build.add_dim_grew, ⟨Build.add_dim_valid inv.valid, ?_⟩, Build.points_add_dim rfl⟩
      rw [Build.root_add_dim inv.valid]
      refine .new inv.shared fun d' mem => ?_
      obtain ⟨dim, mem', at_⟩ := List.mem_filterMap.mp mem
      have other := List.find?_eq_none.mp unused dim mem'
      rw [at_, Option.any_some, decide_eq_true_eq] at other
      exact other
    · rename_i dim found
      have mem := List.mem_of_find?_eq_some found
      have bound := inv.valid dim mem
      have at_ := List.getElem?_eq_getElem bound
      have named := List.find?_some found
      rw [at_, Option.any_some, decide_eq_true_eq] at named
      rw [at_, Option.any_some]
      split
      · rename_i other
        refine ⟨rfl, rfl, Build.add_dim_grew, ⟨Build.add_dim_valid inv.valid, ?_⟩, Build.points_add_dim rfl⟩
        rw [Build.root_add_dim inv.valid]
        have renamed : d.name ++ '_' :: name = s.h.dims[dim].name ++ '_' :: name := by rw [named]
        exact .renamed inv.shared (List.mem_filterMap.mpr ⟨dim, mem, at_⟩) (of_decide_eq_true other) renamed
      · rename_i same
        exact ⟨rfl, rfl, .refl s, inv, fun _ => ⟨dim, mem, rfl, _, at_, by
          rw [decide_eq_true_eq, not_not] at same
          exact same⟩⟩

theorem shareDims_spec (name : Name) (ds : List Dimension) {s : Build} (inv : s.Inv) :
    (shareDims name ds s).2.h.arrays = s.h.arrays ∧ (shareDims name ds s).2.skipped = s.skipped ∧
      Build.Grew s (shareDims name ds s).2 ∧ (shareDims name ds s).2.Inv ∧
      ∀ d ∈ (shareDims name ds s).1, (shareDims name ds s).2.Points d := by
  induction ds generalizing s with
  | nil => exact ⟨rfl, rfl, .refl s, inv, List.forall_mem_nil _⟩
  | cons d ds ih =>
      obtain ⟨arrays, skipped, grew, inv', points⟩ := shareDim_spec name d inv
      obtain ⟨arrays', skipped', grew', inv'', points'⟩ := ih inv'
      rw [shareDims]
      exact ⟨arrays'.trans arrays, skipped'.trans skipped, grew.trans grew', inv'',
        List.forall_mem_cons.mpr ⟨points.grew grew', points'⟩⟩

theorem modify_last {α : Type} (l : List α) (a : α) (f : α → α) : (l ++ [a]).modify l.length f = l ++ [f a] := by
  induction l with
  | nil => rfl
  | cons b bs ih => simp [ih]

/-- The last array is wired, and no other changes. -/
theorem shareShape_spec (name : Name) {s : Build} (inv : s.Inv) {arrays : List Array} {a : Array}
    (last : s.h.arrays = arrays ++ [a]) {s' : Build} (shared : shareShape name arrays.length s = s') :
    s'.skipped = s.skipped ∧ s'.Inv ∧ arrays <+: s'.h.arrays ∧ s.h.dims <+: s'.h.dims ∧ s.dims <+: s'.dims ∧
      s'.Wired arrays.length := by
  subst shared
  obtain ⟨same, skipped, grew, inv', points⟩ := shareDims_spec name (s.h.shapeOf arrays.length) inv
  unfold shareShape
  generalize shareDims name (s.h.shapeOf arrays.length) s = r at same skipped grew inv' points ⊢
  obtain ⟨shape, t⟩ := r
  simp only [last] at same
  refine ⟨skipped, ⟨inv'.valid, inv'.shared⟩, ?_, grew.declared, grew.dims, { a with shape }, ?_, points⟩
  · simp only [same, modify_last]
    exact List.prefix_append _ _
  · simp only [same, modify_last]
    exact List.getElem?_concat_length

/-! ## The variables -/

namespace BaseType

mutual

/-- The arrays in a variable, without those in the element template of another. -/
def own : BaseType → List Nat
  | .simple .. => []
  | .array _ _ decl _ => [decl]
  | .constructor _ _ _ vars => ownIn vars

def ownIn : List BaseType → List Nat
  | [] => []
  | b :: bs => own b ++ ownIn bs

end

mutual

/-- The identities of what is made into a variable of its own, when these have been passed
    over: all but the Grids, for which their arrays and maps stand. -/
def kept (skipped : List Nat) : BaseType → List Nat
  | .simple id _ => [id]
  | .array id _ _ proto => id :: proto.ids
  | .constructor _ _ .dods_grid_c vars => keptIn skipped vars
  | .constructor id _ .dods_structure_c vars | .constructor id _ .dods_sequence_c vars => id :: keptIn skipped vars

def keptIn (skipped : List Nat) : List BaseType → List Nat
  | [] => []
  | b :: bs => (if b.id ∈ skipped then [] else kept skipped b) ++ keptIn skipped bs

end

theorem idsIn_append (bs bs' : List BaseType) : idsIn (bs ++ bs') = idsIn bs ++ idsIn bs' := by
  induction bs with
  | nil => rfl
  | cons b bs ih => simp [idsIn, ih]

theorem ownIn_append (bs bs' : List BaseType) : ownIn (bs ++ bs') = ownIn bs ++ ownIn bs' := by
  induction bs with
  | nil => rfl
  | cons b bs ih => simp [ownIn, ih]

theorem keptIn_append (skipped : List Nat) (bs bs' : List BaseType) :
    keptIn skipped (bs ++ bs') = keptIn skipped bs ++ keptIn skipped bs' := by
  induction bs with
  | nil => rfl
  | cons b bs ih => simp [keptIn, ih]

theorem keptIn_singleton {skipped : List Nat} {b : BaseType} (unseen : b.id ∉ skipped) :
    keptIn skipped [b] = b.kept skipped := by
  rw [keptIn, if_neg unseen, keptIn, List.append_nil]

theorem idsIn_singleton (b : BaseType) : idsIn [b] = b.ids := by simp [idsIn]

theorem ownIn_singleton (b : BaseType) : ownIn [b] = b.own := by simp [ownIn]

theorem id_mem_ids (b : BaseType) : b.id ∈ b.ids := by
  cases b <;> simp [ids, BaseType.id]

mutual

theorem kept_congr {skipped skipped' : List Nat} (b : BaseType) (same : ∀ x ∈ b.ids, x ∈ skipped ↔ x ∈ skipped') :
    kept skipped b = kept skipped' b := by
  cases b with
  | simple | array => simp only [kept]
  | constructor id name kind vars =>
      have inside := keptIn_congr vars fun x mem => same x (by rw [ids]; exact List.mem_cons_of_mem _ mem)
      cases kind <;> simp only [kept, inside]

theorem keptIn_congr {skipped skipped' : List Nat} (bs : List BaseType)
    (same : ∀ x ∈ idsIn bs, x ∈ skipped ↔ x ∈ skipped') : keptIn skipped bs = keptIn skipped' bs := by
  cases bs with
  | nil => simp only [keptIn]
  | cons b bs =>
      rw [idsIn] at same
      have here := same b.id (List.mem_append_left _ b.id_mem_ids)
      rw [keptIn, keptIn, kept_congr b fun x mem => same x (List.mem_append_left _ mem),
        keptIn_congr bs fun x mem => same x (List.mem_append_right _ mem)]
      simp only [here]

end

mutual

/-- Where an array is does not matter for which it is. -/
theorem arrays_snd (q q' : List Step) (b : BaseType) : (b.arrays q).map Prod.snd = (b.arrays q').map Prod.snd := by
  cases b with
  | simple => rw [arrays, arrays]
  | array id name decl proto =>
      rw [arrays, arrays, List.map_append, List.map_append, arrays_snd _ (q' ++ [.element]) proto]
      rfl
  | constructor id name kind vars =>
      rw [arrays, arrays]
      exact arraysIn_snd q q' vars

theorem arraysIn_snd (q q' : List Step) (bs : List BaseType) :
    (arraysIn q bs).map Prod.snd = (arraysIn q' bs).map Prod.snd := by
  cases bs with
  | nil => rw [arraysIn, arraysIn]
  | cons b bs =>
      rw [arraysIn, arraysIn, List.map_append, List.map_append, arrays_snd _ (q' ++ [.field b.name]) b,
        arraysIn_snd q q' bs]

end

end BaseType

open BaseType

/-- The arrays of these variables have their data. -/
def Valid (h : Heap) (bs : List BaseType) : Prop := ∀ decl ∈ (arraysIn [] bs).map Prod.snd, decl < h.arrays.length

theorem Valid.append {h : Heap} {bs bs' : List BaseType} : Valid h (bs ++ bs') ↔ Valid h bs ∧ Valid h bs' := by
  have split : arraysIn [] (bs ++ bs') = arraysIn [] bs ++ arraysIn [] bs' := by
    induction bs with
    | nil => rfl
    | cons b bs ih => simp [arraysIn, ih]
  simp only [Valid, split, List.map_append, List.forall_mem_append]

theorem Valid.grew {s s' : Build} {bs : List BaseType} (valid : Valid s.h bs) (grew : Build.Grew s s') :
    Valid s'.h bs := fun decl mem => (valid decl mem).trans_le grew.arrays.length_le

/-- What has been added to a container for variables of the DDS. -/
structure Added (fresh : Nat) (bs c : List BaseType) (s : Build) (c' : List BaseType) (s' : Build) : Prop where
  grew : Build.Grew s s'
  inv : s'.Inv
  wired : ∀ decl ∈ ownIn c', decl ∈ ownIn c ∨ s'.Wired decl
  skips : ∃ new, s'.skipped = s.skipped ++ new ∧ new ⊆ idsIn bs
  ids : (idsIn c').Perm (idsIn c ++ (keptIn s'.skipped bs).map (fresh + ·))

/-- What variables of a DDS have to be when they are looked at: in the DDS once, and not
    passed over yet. -/
structure Ahead (bs : List BaseType) (s : Build) : Prop where
  valid : Valid s.h bs
  nodup : (idsIn bs).Nodup
  unseen : ∀ x ∈ idsIn bs, x ∉ s.skipped

theorem Ahead.left {bs bs' : List BaseType} {s : Build} (ahead : Ahead (bs ++ bs') s) : Ahead bs s where
  valid := (Valid.append.mp ahead.valid).1
  nodup := by
    have nodup := ahead.nodup
    rw [idsIn_append] at nodup
    exact nodup.of_append_left
  unseen x mem := ahead.unseen x (by rw [idsIn_append]; exact List.mem_append_left _ mem)

namespace Added

variable {fresh : Nat} {bs bs' c c' c'' : List BaseType} {s s' s'' : Build}

/-- The variables that come later are still ahead. -/
theorem ahead (added : Added fresh bs c s c' s') (all : Ahead (bs ++ bs') s) : Ahead bs' s' where
  valid := ((Valid.append.mp all.valid).2).grew added.grew
  nodup := by
    have nodup := all.nodup
    rw [idsIn_append] at nodup
    exact nodup.of_append_right
  unseen x mem := by
    obtain ⟨new, eq, sub⟩ := added.skips
    have nodup := all.nodup
    rw [idsIn_append] at nodup
    rw [eq, List.mem_append, not_or]
    refine ⟨all.unseen x (by rw [idsIn_append]; exact List.mem_append_right _ mem), fun mem' => ?_⟩
    exact (List.nodup_append.mp nodup).2.2 x (sub mem') x mem rfl

theorem nil (inv : s.Inv) : Added fresh [] c s c s where
  grew := .refl s
  inv := inv
  wired decl mem := .inl mem
  skips := ⟨[], (List.append_nil _).symm, List.nil_subset _⟩
  ids := by simp [keptIn]

theorem append (first : Added fresh bs c s c' s') (then_ : Added fresh bs' c' s' c'' s'')
    (nodup : (idsIn (bs ++ bs')).Nodup) : Added fresh (bs ++ bs') c s c'' s'' where
  grew := first.grew.trans then_.grew
  inv := then_.inv
  wired decl mem := by
    rcases then_.wired decl mem with mem | wired
    · exact (first.wired decl mem).imp_right fun wired => wired.grew then_.grew
    · exact .inr wired
  skips := by
    obtain ⟨new, eq, sub⟩ := first.skips
    obtain ⟨new', eq', sub'⟩ := then_.skips
    refine ⟨new ++ new', by rw [eq', eq, List.append_assoc], ?_⟩
    rw [idsIn_append]
    exact List.append_subset.mpr ⟨List.subset_append_of_subset_left _ sub, List.subset_append_of_subset_right _ sub'⟩
  ids := by
    obtain ⟨new', eq', sub'⟩ := then_.skips
    rw [idsIn_append] at nodup
    have same : keptIn s'.skipped bs = keptIn s''.skipped bs := keptIn_congr bs fun x mem => by
      rw [eq', List.mem_append]
      exact (or_iff_left fun mem' => (List.nodup_append.mp nodup).2.2 x mem x (sub' mem') rfl).symm
    rw [keptIn_append, List.map_append, ← same, ← List.append_assoc]
    exact then_.ids.trans (first.ids.append_right _)

theorem skip (inv : s.Inv) (b : BaseType) : Added fresh [b] c s c (s.skip b) where
  grew := ⟨List.prefix_rfl, List.prefix_rfl, List.prefix_rfl⟩
  inv := ⟨inv.valid, inv.shared⟩
  wired decl mem := .inl mem
  skips := ⟨[b.id], rfl, by simpa [idsIn] using b.id_mem_ids⟩
  ids := by simp [keptIn, Build.skip]

/-- A variable with nothing passed over in it. -/
theorem leaf {b dest : BaseType} (ahead : Ahead [b] s) (inv : s'.Inv) (grew : Build.Grew s s')
    (skipped : s'.skipped = s.skipped) (wired : ∀ decl ∈ dest.own, s'.Wired decl)
    (ids : dest.ids = (b.kept s.skipped).map (fresh + ·)) : Added fresh [b] c s (c ++ [dest]) s' where
  grew := grew
  inv := inv
  wired decl mem := by
    rw [ownIn_append, List.mem_append, ownIn_singleton] at mem
    exact mem.imp_right (wired decl)
  skips := ⟨[], by rw [skipped, List.append_nil], List.nil_subset _⟩
  ids := by
    have unseen := ahead.unseen b.id (by rw [idsIn_singleton]; exact b.id_mem_ids)
    rw [idsIn_append, idsIn_singleton, ids, skipped, keptIn_singleton unseen]

/-- A container that is new, with what has been added to it. -/
theorem container {id : Nat} {name : Name} {kind : Constructor.Kind} {vars dest : List BaseType}
    (grid : kind ≠ .dods_grid_c) (ahead : Ahead [.constructor id name kind vars] s)
    (added : Added fresh vars [] s dest s') :
    Added fresh [.constructor id name kind vars] c s (c ++ [.constructor (fresh + id) name kind dest]) s' where
  grew := added.grew
  inv := added.inv
  wired decl mem := by
    rw [ownIn_append, List.mem_append, ownIn_singleton, own] at mem
    refine mem.imp_right fun mem => ?_
    exact (added.wired decl mem).resolve_left (by simp [ownIn])
  skips := by
    obtain ⟨new, eq, sub⟩ := added.skips
    refine ⟨new, eq, ?_⟩
    rw [idsIn_singleton, BaseType.ids]
    exact List.subset_cons_of_subset _ sub
  ids := by
    obtain ⟨new, eq, sub⟩ := added.skips
    have nodup := ahead.nodup
    rw [idsIn_singleton, BaseType.ids] at nodup
    have unseen : id ∉ s'.skipped := by
      rw [eq, List.mem_append, not_or]
      refine ⟨ahead.unseen id (by simp [idsIn, BaseType.ids]), fun mem => ?_⟩
      exact (List.nodup_cons.mp nodup).1 (sub mem)
    have inside := added.ids
    rw [idsIn, List.nil_append] at inside
    have keeps : keptIn s'.skipped [.constructor id name kind vars] = id :: keptIn s'.skipped vars := by
      rw [keptIn_singleton unseen]
      cases kind with
      | dods_grid_c => exact absurd rfl grid
      | dods_structure_c | dods_sequence_c => rw [BaseType.kept]
    rw [keeps, idsIn_append, idsIn_singleton, BaseType.ids, List.map_cons]
    exact (inside.cons _).append_left _

/-- A Grid, for which its maps and its array are added. -/
theorem grid {id : Nat} {name : Name} {data : BaseType} {maps : List BaseType}
    (ahead : Ahead [.constructor id name .dods_grid_c (data :: maps)] s)
    (added : Added fresh (maps ++ [data]) c s c' s') :
    Added fresh [.constructor id name .dods_grid_c (data :: maps)] c s c' s' where
  grew := added.grew
  inv := added.inv
  wired := added.wired
  skips := by
    obtain ⟨new, eq, sub⟩ := added.skips
    refine ⟨new, eq, fun x mem => ?_⟩
    have mem' := sub mem
    rw [idsIn_append, idsIn_singleton, List.mem_append] at mem'
    rw [idsIn_singleton, BaseType.ids, idsIn]
    exact List.mem_cons_of_mem _ (List.mem_append.mpr mem'.symm)
  ids := by
    obtain ⟨new, eq, sub⟩ := added.skips
    have nodup := ahead.nodup
    rw [idsIn_singleton, BaseType.ids, idsIn] at nodup
    have unseen : id ∉ s'.skipped := by
      rw [eq, List.mem_append, not_or]
      refine ⟨ahead.unseen id (by simp [idsIn, BaseType.ids]), fun mem => ?_⟩
      have mem' := sub mem
      rw [idsIn_append, idsIn_singleton, List.mem_append] at mem'
      exact (List.nodup_cons.mp nodup).1 (List.mem_append.mpr mem'.symm)
    have keeps : keptIn s'.skipped [.constructor id name .dods_grid_c (data :: maps)] =
        keptIn s'.skipped ([data] ++ maps) := by
      rw [keptIn_singleton unseen, BaseType.kept]
      rfl
    refine added.ids.trans (List.Perm.append_left _ (List.Perm.map _ ?_))
    rw [keeps, keptIn_append, keptIn_append]
    exact List.perm_append_comm

/-- An array that is not a DAP4 variable already. -/
theorem array {dap4 : List Nat} {root : Option (List BaseType)} {id decl : Nat} {name : Name} {proto : BaseType}
    (inv : s.Inv) (ahead : Ahead [.array id name decl proto] s) (dap2 : id ∉ dap4)
    (done : transform_to_dap4 fresh dap4 root (.array id name decl proto) c s = some (c', s')) :
    Added fresh [.array id name decl proto] c s c' s' := by
  have ids := @ids_ptr_duplicate fresh (.array id name decl proto) s.h
  have valid := ahead.valid
  simp only [Valid, arraysIn, arrays, List.append_nil, List.map_append, List.forall_mem_append, List.map_cons,
    List.map_nil, List.forall_mem_singleton] at valid
  obtain ⟨inside, there⟩ := valid
  have copied := @ptr_duplicate_arrays fresh proto [] (s.h.copySendP id (fresh + id)) fun x mem => by
    rw [copySendP_arrays]
    refine inside x.2 ?_
    rw [arrays_snd _ []]
    exact List.mem_map_of_mem mem
  have same := (@ptr_duplicate_dims fresh proto (s.h.copySendP id (fresh + id))).trans
    (copySendP_dims s.h id (fresh + id))
  have old := copied.old
  rw [copySendP_arrays] at old
  rw [transform_to_dap4] at done
  rw [ptr_duplicate] at done ids
  simp only [if_neg dap2, kept old (List.getElem?_eq_getElem there), Option.toList_some, List.length_append, List.length_singleton,
    Nat.add_sub_cancel] at done ids
  obtain ⟨rfl, shared⟩ := Prod.mk.inj (Option.some.inj done)
  have inv₁ : Build.Inv { s with h := { (proto.ptr_duplicate fresh (s.h.copySendP id (fresh + id))).2 with
      arrays := (proto.ptr_duplicate fresh (s.h.copySendP id (fresh + id))).2.arrays ++ [s.h.arrays[decl]] } } := by
    refine ⟨fun dim mem => ?_, ?_⟩
    · simp only [same]
      exact inv.valid dim mem
    · simp only [Build.root, same]
      exact inv.shared
  obtain ⟨skipped, inv', arrays, declared, dims, wired⟩ := shareShape_spec name inv₁ rfl shared
  simp only [same] at declared
  exact leaf ahead inv' ⟨old.trans arrays, declared, dims⟩ skipped (by
    simp only [own, List.forall_mem_singleton]
    exact wired) (by rw [ids, BaseType.kept, BaseType.ids])

theorem simple {dap4 : List Nat} {root : Option (List BaseType)} {id : Nat} {name : Name} (inv : s.Inv)
    (ahead : Ahead [.simple id name] s)
    (done : transform_to_dap4 fresh dap4 root (.simple id name) c s = some (c', s')) :
    Added fresh [.simple id name] c s c' s' := by
  rw [transform_to_dap4, ptr_duplicate] at done
  obtain ⟨rfl, rfl⟩ := Prod.mk.inj (Option.some.inj done)
  have dims := copySendP_dims s.h id (fresh + id)
  have arrays := copySendP_arrays s.h id (fresh + id)
  refine leaf ahead ⟨fun dim mem => ?_, ?_⟩ ⟨?_, ?_, List.prefix_rfl⟩ rfl (by simp [own]) ?_
  · simp only [dims]
    exact inv.valid dim mem
  · simp only [Build.root, dims]
    exact inv.shared
  · simp only [arrays]
    exact List.prefix_rfl
  · simp only [dims]
    exact List.prefix_rfl
  · rw [BaseType.kept, BaseType.ids]
    rfl

end Added

theorem Ahead.cons {b : BaseType} {bs : List BaseType} {s : Build} (ahead : Ahead (b :: bs) s) : Ahead [b] s :=
  @Ahead.left [b] bs s ahead

theorem Ahead.fields {id : Nat} {name : Name} {kind : Constructor.Kind} {vars : List BaseType} {s : Build}
    (ahead : Ahead [.constructor id name kind vars] s) : Ahead vars s where
  valid := by
    have valid := ahead.valid
    simp only [Valid, arraysIn, arrays, List.append_nil] at valid
    intro decl mem
    refine valid decl ?_
    rw [arraysIn_snd _ []]
    exact mem
  nodup := by
    have nodup := ahead.nodup
    rw [idsIn_singleton, BaseType.ids] at nodup
    exact (List.nodup_cons.mp nodup).2
  unseen x mem := ahead.unseen x (by
    rw [idsIn_singleton, BaseType.ids]
    exact List.mem_cons_of_mem _ mem)

theorem Ahead.swap {b : BaseType} {bs : List BaseType} {s : Build} (ahead : Ahead (b :: bs) s) :
    Ahead (bs ++ [b]) s where
  valid := by
    have valid := Valid.append.mp (show Valid s.h ([b] ++ bs) from ahead.valid)
    exact Valid.append.mpr valid.symm
  nodup := by
    have nodup : (idsIn ([b] ++ bs)).Nodup := ahead.nodup
    rw [idsIn_append] at nodup ⊢
    exact List.nodup_append_comm.mp nodup
  unseen x mem := ahead.unseen x (by
    have mem' : x ∈ idsIn ([b] ++ bs) := by
      rw [idsIn_append] at mem ⊢
      exact List.mem_append.mpr (List.mem_append.mp mem).symm
    exact mem')

section

variable {fresh : Nat} {dap4 : List Nat}

mutual

theorem transform_to_dap4_added (root : Option (List BaseType)) (b : BaseType) {c c' : List BaseType} {s s' : Build}
    (inv : s.Inv) (ahead : Ahead [b] s) (dap2 : ∀ x ∈ b.ids, x ∉ dap4)
    (done : transform_to_dap4 fresh dap4 root b c s = some (c', s')) : Added fresh [b] c s c' s' := by
  cases b with
  | simple id name => exact .simple inv ahead done
  | array id name decl proto => exact .array inv ahead (dap2 id (by rw [BaseType.ids]; exact List.mem_cons_self)) done
  | constructor id name kind vars =>
      rw [BaseType.ids, List.forall_mem_cons] at dap2
      obtain ⟨mine, theirs⟩ := dap2
      cases kind with
      | dods_structure_c =>
          rw [transform_to_dap4] at done
          obtain ⟨⟨dest, t⟩, members, rest⟩ := Option.bind_eq_some_iff.mp done
          obtain ⟨rfl, rfl⟩ := Prod.mk.inj (Option.some.inj rest)
          have added := transform_members_added (some (root.getD c)) vars inv ahead.fields theirs members
          exact .container (by decide) ahead added
      | dods_sequence_c =>
          rw [transform_to_dap4, if_neg mine] at done
          obtain ⟨⟨dest, t⟩, members, rest⟩ := Option.bind_eq_some_iff.mp done
          obtain ⟨rfl, rfl⟩ := Prod.mk.inj (Option.some.inj rest)
          have added := transform_members_added (some (root.getD c)) vars inv ahead.fields theirs members
          exact .container (by decide) ahead added
      | dods_grid_c =>
          cases vars with
          | nil => cases done
          | cons data maps =>
              rw [idsIn, List.forall_mem_append] at theirs
              rw [transform_to_dap4] at done
              obtain ⟨⟨c₁, s₁⟩, first, done⟩ := Option.bind_eq_some_iff.mp done
              obtain ⟨⟨c₂, s₂⟩, second, done⟩ := Option.bind_eq_some_iff.mp done
              simp only at done
              have both := ahead.fields.swap
              have added := grid_maps_added root maps inv both.left theirs.2 first
              have added' := transform_to_dap4_added root data added.inv (added.ahead both) theirs.1 second
              have all := added.append added' both.nodup
              split at done
              · obtain ⟨rfl, rfl⟩ := Prod.mk.inj (Option.some.inj done)
                exact .grid ahead all
              · cases done

theorem transform_members_added (root : Option (List BaseType)) (bs : List BaseType) {c c' : List BaseType}
    {s s' : Build} (inv : s.Inv) (ahead : Ahead bs s) (dap2 : ∀ x ∈ idsIn bs, x ∉ dap4)
    (done : transform_members fresh dap4 root bs c s = some (c', s')) : Added fresh bs c s c' s' := by
  cases bs with
  | nil =>
      obtain ⟨rfl, rfl⟩ := Prod.mk.inj (Option.some.inj done)
      exact .nil inv
  | cons b bs =>
      rw [idsIn, List.forall_mem_append] at dap2
      rw [transform_members] at done
      split at done
      · have first := @Added.skip fresh c s inv b
        have rest := transform_members_added root bs first.inv (first.ahead ahead) dap2.2 done
        exact first.append rest ahead.nodup
      · obtain ⟨⟨c₁, s₁⟩, one, done⟩ := Option.bind_eq_some_iff.mp done
        have first := transform_to_dap4_added root b inv ahead.cons dap2.1 one
        have rest := transform_members_added root bs first.inv (first.ahead ahead) dap2.2 done
        exact first.append rest ahead.nodup

theorem grid_maps_added (root : Option (List BaseType)) (ms : List BaseType) {c c' : List BaseType}
    {s s' : Build} (inv : s.Inv) (ahead : Ahead ms s) (dap2 : ∀ x ∈ idsIn ms, x ∉ dap4)
    (done : grid_maps fresh dap4 root ms c s = some (c', s')) : Added fresh ms c s c' s' := by
  cases ms with
  | nil =>
      obtain ⟨rfl, rfl⟩ := Prod.mk.inj (Option.some.inj done)
      exact .nil inv
  | cons m ms =>
      rw [idsIn, List.forall_mem_append] at dap2
      rw [grid_maps] at done
      split at done
      · have first := @Added.skip fresh c s inv m
        have rest := grid_maps_added root ms first.inv (first.ahead ahead) dap2.2 done
        exact first.append rest ahead.nodup
      · obtain ⟨⟨c₁, s₁⟩, one, done⟩ := Option.bind_eq_some_iff.mp done
        obtain ⟨found, -, done⟩ := Option.bind_eq_some_iff.mp done
        have first := transform_to_dap4_added root m inv ahead.cons dap2.1 one
        have rest := grid_maps_added root ms first.inv (first.ahead ahead) dap2.2 done
        exact first.append rest ahead.nodup

end

theorem DMR.go_eq (bs c : List BaseType) (s : Build) :
    build_using_dds.go fresh dap4 bs c s = transform_members fresh dap4 none bs c s := by
  induction bs generalizing c s with
  | nil => rfl
  | cons b bs ih => simp only [build_using_dds.go, transform_members, ih]

theorem Build.Inv.start (h : Heap) : Build.Inv ⟨h, [], []⟩ := ⟨List.forall_mem_nil _, .nil⟩

end

/-! A Grid with a map, and an array of the dataset that has the name of the map. -/

section

def mapped : List BaseType :=
  [.constructor 0 ['g'] .dods_grid_c [.array 1 ['a'] 0 (.simple 2 ['a']), .array 3 ['x'] 1 (.simple 4 ['x'])],
    .array 5 ['x'] 1 (.simple 6 ['x'])]

def mappedHeap : Heap where
  dims := []
  arrays := [⟨[.ofSize 2 ['x']], 2, []⟩, ⟨[.ofSize 2 ['x']], 2, []⟩]
  sendP := []

theorem lookupVar_plain {vars : List BaseType} {name : Name} (dot : '.' ∉ name) (escape : '%' ∉ name) :
    lookupVar vars name = vars.find? (·.name = name) := by
  cases found : vars.find? (·.name = name) with
  | some b =>
      refine lookupVar_found ?_
      rw [www2id_of_not_mem escape, found]
  | none =>
      refine lookupVar_missed ?_ ?_
      · rw [www2id_of_not_mem escape, found]
      · rw [www2id_of_not_mem escape]
        exact splitFirst_eq_none.mpr dot

theorem mapped_valid : Valid mappedHeap mapped := by
  rw [Valid]
  decide

theorem mapped_ids : (DMR.build_using_dds 10 [] mapped mappedHeap).map (fun r => idsIn r.1) = some [13, 14, 11, 12] := by
  simp [DMR.build_using_dds, DMR.build_using_dds.go, mapped, mappedHeap, transform_to_dap4, grid_maps, lookupVar_plain,
    BaseType.name, ptr_duplicate, Heap.copySendP, shareShape, Heap.shapeOf, shareDims, shareDim, Dimension.ofSize,
    idsIn, BaseType.ids, Build.add_dim, Build.skip]

end

end Libdap.Dap4

