import Libdap.Dap4.CopiedTree

/-! # Copies that stand alone

The copy of a group has the shape and the names of the original. Whether it has
nothing more to do with the original is decided by its arrays: by where they stand,
and by what their dimensions and maps point to.
-/

namespace Libdap.Dap4

namespace BaseType

mutual

/-- A variable without its identity and address. -/
def outline : BaseType → BaseType
  | .simple _ name => .simple 0 name
  | .array _ name _ proto => .array 0 name 0 (outline proto)
  | .constructor _ name kind vars => .constructor 0 name kind (outlines vars)

def outlines : List BaseType → List BaseType
  | [] => []
  | b :: bs => outline b :: outlines bs

end

mutual

/-- The ways to everything in a variable. -/
def paths (q : List Step) : BaseType → List (List Step)
  | .simple .. => [q]
  | .array _ _ _ proto => q :: paths (q ++ [.element]) proto
  | .constructor _ _ _ vars => q :: pathsIn q vars

def pathsIn (q : List Step) : List BaseType → List (List Step)
  | [] => []
  | b :: bs => paths (q ++ [.field b.name]) b ++ pathsIn q bs

end

end BaseType

namespace D4Group

mutual

def outline : D4Group → D4Group
  | .mk _ name dims enumDefs vars groups =>
    .mk 0 name (dims.map fun _ => 0) (enumDefs.map fun e => { e with id := 0 }) (BaseType.outlines vars)
      (outlines groups)

def outlines : List D4Group → List D4Group
  | [] => []
  | g :: gs => outline g :: outlines gs

end

mutual

/-- The fully qualified names of the groups and variables of a tree. -/
def names (parents : List Name) : D4Group → List Name
  | .mk _ name _ _ vars groups =>
    D4Group.FQN (name :: parents) ::
      ((BaseType.pathsIn [] vars).map (fun q => BaseType.FQN (name :: parents) (Step.names q).reverse) ++
        namesIn (name :: parents) groups)

def namesIn (parents : List Name) : List D4Group → List Name
  | [] => []
  | g :: gs => names parents g ++ namesIn parents gs

end

end D4Group

section

variable {fresh : Nat}

namespace BaseType

theorem name_outline (b : BaseType) : b.outline.name = b.name := by
  cases b <;> rw [outline] <;> rfl

mutual

theorem paths_outline (q : List Step) (b : BaseType) : b.outline.paths q = b.paths q := by
  cases b with
  | simple => rw [outline, paths, paths]
  | array id name decl proto => rw [outline, paths, paths, paths_outline]
  | constructor id name kind vars => rw [outline, paths, paths, pathsIn_outlines]

theorem pathsIn_outlines (q : List Step) (vars : List BaseType) : pathsIn q (outlines vars) = pathsIn q vars := by
  cases vars with
  | nil => rw [outlines]
  | cons b bs => rw [outlines, pathsIn, pathsIn, name_outline, paths_outline, pathsIn_outlines]

end

mutual

theorem outline_ptr_duplicate (b : BaseType) (h : Heap) : (b.ptr_duplicate fresh h).1.outline = b.outline := by
  cases b with
  | simple => rw [ptr_duplicate, outline, outline]
  | array id name decl proto =>
      rw [ptr_duplicate, outline, outline]
      exact congrArg (BaseType.array 0 name 0) (outline_ptr_duplicate proto _)
  | constructor id name kind vars =>
      rw [ptr_duplicate, outline, outline]
      exact congrArg (BaseType.constructor 0 name kind) (outlines_ptr_duplicate vars _)

theorem outlines_ptr_duplicate (vars : List BaseType) (h : Heap) :
    outlines (ptr_duplicate_vars fresh vars h).1 = outlines vars := by
  cases vars with
  | nil => rw [ptr_duplicate_vars]
  | cons b bs =>
      rw [ptr_duplicate_vars, outlines, outlines, outline_ptr_duplicate b h]
      exact congrArg (b.outline :: ·) (outlines_ptr_duplicate bs _)

end

mutual

theorem ids_ptr_duplicate (b : BaseType) (h : Heap) : (b.ptr_duplicate fresh h).1.ids = b.ids.map (fresh + ·) := by
  cases b with
  | simple => rw [ptr_duplicate, ids, ids]; rfl
  | array id name decl proto =>
      rw [ptr_duplicate, ids, ids, List.map_cons]
      exact congrArg ((fresh + id) :: ·) (ids_ptr_duplicate proto _)
  | constructor id name kind vars =>
      rw [ptr_duplicate, ids, ids, List.map_cons]
      exact congrArg ((fresh + id) :: ·) (idsIn_ptr_duplicate vars _)

theorem idsIn_ptr_duplicate (vars : List BaseType) (h : Heap) :
    idsIn (ptr_duplicate_vars fresh vars h).1 = (idsIn vars).map (fresh + ·) := by
  cases vars with
  | nil => rw [ptr_duplicate_vars, idsIn]; rfl
  | cons b bs =>
      rw [ptr_duplicate_vars, idsIn, idsIn, List.map_append, ids_ptr_duplicate b h]
      exact congrArg (b.ids.map (fresh + ·) ++ ·) (idsIn_ptr_duplicate bs _)

end

end BaseType

namespace D4Group

theorem name_outline (g : D4Group) : g.outline.name = g.name := by
  cases g
  rw [outline]
  rfl

mutual

theorem names_outline (parents : List Name) (g : D4Group) : g.outline.names parents = g.names parents := by
  cases g with
  | mk id name dims enumDefs vars groups =>
      rw [outline, names, names, BaseType.pathsIn_outlines, namesIn_outlines]

theorem namesIn_outlines (parents : List Name) (gs : List D4Group) :
    namesIn parents (outlines gs) = namesIn parents gs := by
  cases gs with
  | nil => rw [outlines]
  | cons g gs => rw [outlines, namesIn, namesIn, names_outline, namesIn_outlines]

end

theorem length_m_duplicate (dims : List Nat) (h : Heap) : (D4Dimensions.m_duplicate dims h).1.length = dims.length := by
  induction dims generalizing h with
  | nil => rfl
  | cons dim dims ih =>
      rw [D4Dimensions.m_duplicate]
      exact congrArg (· + 1) (ih _)

mutual

/-- The copy has the shape of the original. -/
theorem outline_ptr_duplicate (g : D4Group) (h : Heap) : (g.ptr_duplicate fresh h).1.outline = g.outline := by
  cases g with
  | mk id name dims enumDefs vars groups =>
      rw [ptr_duplicate, outline, outline]
      congr 1
      · rw [List.map_const', List.map_const', length_m_duplicate]
      · rw [List.map_map]
        rfl
      · exact BaseType.outlines_ptr_duplicate vars _
      · exact outlines_ptr_duplicate groups _

theorem outlines_ptr_duplicate (gs : List D4Group) (h : Heap) :
    outlines (ptr_duplicate_groups fresh gs h).1 = outlines gs := by
  cases gs with
  | nil => rw [ptr_duplicate_groups]
  | cons g gs =>
      rw [ptr_duplicate_groups, outlines, outlines, outline_ptr_duplicate g h]
      exact congrArg (g.outline :: ·) (outlines_ptr_duplicate gs _)

end

/-- The copy has the names of the original. -/
theorem names_ptr_duplicate (g : D4Group) (parents : List Name) (h : Heap) :
    (g.ptr_duplicate fresh h).1.names parents = g.names parents := by
  rw [← names_outline, outline_ptr_duplicate, names_outline]

mutual

theorem ids_ptr_duplicate (g : D4Group) (h : Heap) : (g.ptr_duplicate fresh h).1.ids = g.ids.map (fresh + ·) := by
  cases g with
  | mk id name dims enumDefs vars groups =>
      rw [ptr_duplicate, ids, ids, List.map_cons, List.map_append, BaseType.idsIn_ptr_duplicate]
      exact congrArg ((fresh + id) :: (BaseType.idsIn vars).map (fresh + ·) ++ ·) (idsIn_ptr_duplicate groups _)

theorem idsIn_ptr_duplicate (gs : List D4Group) (h : Heap) :
    idsIn (ptr_duplicate_groups fresh gs h).1 = (idsIn gs).map (fresh + ·) := by
  cases gs with
  | nil => rw [ptr_duplicate_groups, idsIn]; rfl
  | cons g gs =>
      rw [ptr_duplicate_groups, idsIn, idsIn, List.map_append, ids_ptr_duplicate g h]
      exact congrArg (g.ids.map (fresh + ·) ++ ·) (idsIn_ptr_duplicate gs _)

end

end D4Group

end

/-- The fully qualified name of a declared dimension. -/
def dimFQN (h : Heap) (y : List Name × Nat) : Option Name :=
  (h.dims[y.2]?).map fun s => fully_qualified_name s.name y.1

/-- What an array says, with the dimensions and the map sources that it points to. -/
def arrayView (h : Heap) (decl : Nat) : Option (Array × List (Option D4Dimension) × List (Option Array)) :=
  (h.arrays[decl]?).map fun a =>
    (a, a.shape.map (fun d => d.dim.bind (h.dims[·]?)), a.maps.map (fun m => m.array.bind (h.arrays[·]?)))

section

variable (parents : List Name) (h : Heap) (root : D4Group)

def sourceArrays : List Nat := (root.placed parents).map Placed.decl

def sourceDims : List Nat := (root.declares parents).map Prod.snd

/-- The pointers of the tree lead somewhere, and each dimension is declared in one place. -/
structure Owned (fresh : Nat) : Prop where
  arrays : ∀ i ∈ sourceArrays parents root, i < h.arrays.length
  dims : ∀ i ∈ sourceDims parents root, i < h.dims.length
  ids : ∀ i ∈ root.ids, i < fresh
  once : (sourceDims parents root).Nodup

/-- Each array uses only dimensions of its own group among those of the tree, and is a variable
    of that group itself. -/
def OwnDims : Prop :=
  ∀ x ∈ root.placed parents, ∀ a ∈ h.arrays[x.decl]?, ∀ dimension ∈ a.shape, ∀ d ∈ dimension.dim,
    d ∈ sourceDims parents root → x.Direct ∧ d ∈ x.own

/-- The maps have their values from outside of the tree. -/
def OutsideMaps : Prop :=
  ∀ x ∈ root.placed parents, ∀ a ∈ h.arrays[x.decl]?, ∀ m ∈ a.maps, ∀ i ∈ m.array,
    i ∉ sourceArrays parents root

instance : Decidable (OwnDims parents h root) :=
  inferInstanceAs (Decidable (∀ x ∈ root.placed parents, ∀ a ∈ h.arrays[x.decl]?, ∀ dimension ∈ a.shape,
    ∀ d ∈ dimension.dim, d ∈ sourceDims parents root → x.Direct ∧ d ∈ x.own))

instance : Decidable (OutsideMaps parents h root) :=
  inferInstanceAs (Decidable (∀ x ∈ root.placed parents, ∀ a ∈ h.arrays[x.decl]?, ∀ m ∈ a.maps,
    ∀ i ∈ m.array, i ∉ sourceArrays parents root))

variable (h' : Heap) (copy : D4Group)

/-- A pointer to a dimension of the original becomes one to the copy's own dimension with the
    same fully qualified name, which is none of the original's. -/
def RefersToCopy (dim dim' : Option Nat) : Prop :=
  ∀ y ∈ root.declares parents, dim = some y.2 → ∃ y' ∈ copy.declares parents,
    dim' = some y'.2 ∧ y'.2 ∉ sourceDims parents root ∧ dimFQN h' y' = dimFQN h y

def RefersToOwnDims : Prop :=
  List.Forall₂ (fun x x' => ∀ a ∈ h.arrays[x.decl]?, ∃ a' ∈ h'.arrays[x'.decl]?,
    List.Forall₂ (fun d d' => RefersToCopy parents h root h' copy d.dim d'.dim) a.shape a'.shape)
    (root.placed parents) (copy.placed parents)

/-- Whatever becomes of the arrays, dimensions and flags of the original, nothing of it is seen
    in the copy. -/
def Undisturbed : Prop :=
  ∀ h'' : Heap, (∀ i ∉ sourceArrays parents root, h''.arrays[i]? = h'.arrays[i]?) →
    (∀ i ∉ sourceDims parents root, h''.dims[i]? = h'.dims[i]?) →
    (∀ i ∉ root.ids, i ∈ h''.sendP ↔ i ∈ h'.sendP) →
    (∀ x ∈ copy.placed parents, arrayView h'' x.decl = arrayView h' x.decl) ∧
    (∀ y ∈ copy.declares parents, h''.dims[y.2]? = h'.dims[y.2]?) ∧
    ∀ i ∈ copy.ids, i ∈ h''.sendP ↔ i ∈ h'.sendP

structure SelfContained : Prop where
  outline : copy.outline = root.outline
  names : copy.names parents = root.names parents
  dims : (copy.declares parents).map (dimFQN h') = (root.declares parents).map (dimFQN h)
  refers : RefersToOwnDims parents h root h' copy
  undisturbed : Undisturbed parents root h' copy

end

/-- An array of the copy shows what it does as long as what it points to does. -/
theorem arrayView_congr {h₁ h₂ : Heap} {decl : Nat} {a : Array} (at_ : h₁.arrays[decl]? = some a)
    (same : h₂.arrays[decl]? = h₁.arrays[decl]?)
    (dims : ∀ dimension ∈ a.shape, ∀ d ∈ dimension.dim, h₂.dims[d]? = h₁.dims[d]?)
    (maps : ∀ m ∈ a.maps, ∀ i ∈ m.array, h₂.arrays[i]? = h₁.arrays[i]?) :
    arrayView h₂ decl = arrayView h₁ decl := by
  unfold arrayView
  rw [same, at_, Option.map_some, Option.map_some]
  congr 3
  · refine List.map_congr_left fun dimension mem => ?_
    cases points : dimension.dim with
    | none => rfl
    | some d => exact dims dimension mem d points
  · refine List.map_congr_left fun m mem => ?_
    cases points : m.array with
    | none => rfl
    | some i => exact maps m mem i points

theorem forall₂_iff_forall {α β : Type} {P Q : α → β → Prop} {C : α → Prop} {l : List α} {l' : List β}
    (each : List.Forall₂ P l l') (same : ∀ x ∈ l, ∀ x' ∈ l', P x x' → (Q x x' ↔ C x)) :
    List.Forall₂ Q l l' ↔ ∀ x ∈ l, C x := by
  induction each with
  | nil => simp
  | @cons x x' l l' here _ ih =>
      have first := same x List.mem_cons_self x' List.mem_cons_self here
      have rest := ih fun y mem y' mem' => same y (List.mem_cons_of_mem x mem) y' (List.mem_cons_of_mem x' mem')
      rw [List.forall₂_cons, List.forall_mem_cons, first, rest]

namespace D4Group

mutual

/-- The dimensions of an array's group are declared there. -/
theorem own_declared (g : D4Group) (parents : List Name) {x : Placed} (mem : x ∈ g.placed parents) {d : Nat}
    (own : d ∈ x.own) : (x.groups, d) ∈ g.declares parents := by
  cases g with
  | mk id name dims enumDefs vars groups =>
      rw [placed] at mem
      rw [declares]
      rcases List.mem_append.mp mem with here | inside
      · obtain ⟨y, -, rfl⟩ := List.mem_map.mp here
        exact List.mem_append_left _ (List.mem_map_of_mem own)
      · exact List.mem_append_right _ (ownIn_declared groups (name :: parents) inside own)

theorem ownIn_declared (gs : List D4Group) (parents : List Name) {x : Placed} (mem : x ∈ placedIn parents gs)
    {d : Nat} (own : d ∈ x.own) : (x.groups, d) ∈ declaresIn parents gs := by
  cases gs with
  | nil =>
      rw [placedIn] at mem
      cases mem
  | cons g gs =>
      rw [placedIn] at mem
      rw [declaresIn]
      rcases List.mem_append.mp mem with here | inside
      · exact List.mem_append_left _ (own_declared g parents here own)
      · exact List.mem_append_right _ (ownIn_declared gs parents inside own)

end

end D4Group

section

variable {parents : List Name} {h : Heap} {root : D4Group} {fresh : Nat}

theorem copied_of_owned (owned : Owned parents h root fresh) :
    D4Group.Copied h (root.ptr_duplicate fresh h).2 (root.placed parents)
      ((root.ptr_duplicate fresh h).1.placed parents) (root.declares parents)
      ((root.ptr_duplicate fresh h).1.declares parents) :=
  D4Group.ptr_duplicate_copied root parents h (fun _ mem => owned.arrays _ (List.mem_map_of_mem mem))
    (fun _ mem => owned.dims _ (List.mem_map_of_mem mem))

variable {h' : Heap} {copy : D4Group}

variable (parents h root h' copy) in
abbrev CopyOf : Prop :=
  D4Group.Copied h h' (root.placed parents) (copy.placed parents) (root.declares parents) (copy.declares parents)

variable (owned : Owned parents h root fresh) (copied : CopyOf parents h root h' copy)

include owned copied

theorem fresh_dim {y' : List Name × Nat} (mem : y' ∈ copy.declares parents) :
    y'.2 ∉ sourceDims parents root :=
  fun mem' => absurd (owned.dims _ mem') (Nat.not_lt.mpr (copied.dims.fresh mem).1)

theorem fresh_array {x' : Placed} (mem : x' ∈ copy.placed parents) :
    x'.decl ∉ sourceArrays parents root :=
  fun mem' => absurd (owned.arrays _ mem') (Nat.not_lt.mpr (copied.arrays.fresh mem).1)

/-- One pointer of an array: it refers to the copy exactly when the array stands where its
    pointers are rewired. -/
theorem refersToCopy_iff {x x' : Placed} (mem : x ∈ root.placed parents) (mem' : x' ∈ copy.placed parents)
    (groups : x'.groups = x.groups) {dim dim' : Option Nat} (follows : Follows h' x x' dim dim') :
    RefersToCopy parents h root h' copy dim dim' ↔
      ∀ d ∈ dim, d ∈ sourceDims parents root → x.Direct ∧ d ∈ x.own := by
  constructor
  · intro refers d points source
    by_contra other
    have stays : dim' = dim := follows.2 fun e points' => by
      obtain rfl := Option.mem_unique points points'
      exact other
    obtain ⟨y, mem_y, rfl⟩ := List.mem_map.mp source
    obtain ⟨y', mem_y', points', apart, -⟩ := refers y mem_y points
    rw [stays, Option.mem_def.mp points] at points'
    exact apart (Option.some.inj points' ▸ source)
  · intro own y mem_y points
    obtain ⟨direct, here⟩ := own y.2 points (List.mem_map_of_mem mem_y)
    obtain ⟨d', own', points', s, s', at_, at_', same⟩ := follows.1 y.2 points direct here
    have declared := D4Group.own_declared copy parents mem' own'
    refine ⟨(x'.groups, d'), declared, points', fresh_dim owned copied declared, ?_⟩
    have place : y = (x.groups, y.2) :=
      List.inj_on_of_nodup_map owned.once mem_y (D4Group.own_declared root parents mem here) rfl
    obtain ⟨s₀, at_₀⟩ : ∃ s₀, h.dims[y.2]? = some s₀ :=
      ⟨_, List.getElem?_eq_getElem (owned.dims _ (List.mem_map_of_mem mem_y))⟩
    obtain rfl : s₀ = s := Option.some.inj ((kept copied.dims.old at_₀).symm.trans at_)
    rw [place]
    simp only [dimFQN, at_', at_₀, Option.map_some, groups, same]

theorem refersToOwnDims_iff :
    RefersToOwnDims parents h root h' copy ↔ OwnDims parents h root := by
  refine forall₂_iff_forall copied.arrays.each ?_
  intro x mem x' mem' each
  refine forall₂_congr fun a at_ => ?_
  obtain ⟨a', at_', rewired⟩ := each a at_
  have shapes : List.Forall₂ (fun d d' => RefersToCopy parents h root h' copy d.dim d'.dim) a.shape a'.shape ↔
      ∀ dimension ∈ a.shape, ∀ d ∈ dimension.dim, d ∈ sourceDims parents root → x.Direct ∧ d ∈ x.own :=
    forall₂_iff_forall rewired.shape fun _ _ _ _ both => refersToCopy_iff owned copied mem mem' rewired.groups both.2
  rw [← shapes]
  constructor
  · rintro ⟨b, at_b, refers⟩
    obtain rfl := Option.some.inj (at_'.symm.trans at_b)
    exact refers
  · intro refers
    exact ⟨a', at_', refers⟩

theorem dimFQN_copied :
    (copy.declares parents).map (dimFQN h') = (root.declares parents).map (dimFQN h) := by
  refine (List.forall₂_eq_eq_eq ▸ List.forall₂_map_right_iff.mpr (List.forall₂_map_left_iff.mpr ?_)).symm
  have each := List.forall₂_iff_zip.mp copied.dims.each
  refine List.forall₂_iff_zip.mpr ⟨each.1, fun {y y'} pair => ?_⟩
  have there := owned.dims _ (List.mem_map_of_mem (List.of_mem_zip pair).1)
  obtain ⟨s, at_⟩ : ∃ s, h.dims[y.2]? = some s := ⟨_, List.getElem?_eq_getElem there⟩
  obtain ⟨s', at_', place, same⟩ := each.2 pair s at_
  simp only [dimFQN, at_, at_', Option.map_some, place, same]

/-- The array that a copied array is the copy of. -/
theorem original_of_copy {x' : Placed} (mem' : x' ∈ copy.placed parents) :
    ∃ x ∈ root.placed parents, ∃ a a', h.arrays[x.decl]? = some a ∧ h'.arrays[x'.decl]? = some a' ∧
      Rewired h' x x' a a' :=
  copied.arrays.original_of (fun _ mem => owned.arrays _ (List.mem_map_of_mem mem)) mem'

omit owned in
theorem copy_of_original {x : Placed} (mem : x ∈ root.placed parents) {a : Array}
    (at_ : h.arrays[x.decl]? = some a) :
    ∃ x' ∈ copy.placed parents, ∃ a', h'.arrays[x'.decl]? = some a' ∧ Rewired h' x x' a a' :=
  copied.arrays.copy_of mem at_

/-- A pointer of the copy does not lead into the original. -/
theorem apart_of_ownDims {x x' : Placed} (mem' : x' ∈ copy.placed parents) {dim dim' : Option Nat}
    (follows : Follows h' x x' dim dim')
    (own : ∀ d ∈ dim, d ∈ sourceDims parents root → x.Direct ∧ d ∈ x.own) :
    ∀ d ∈ dim', d ∉ sourceDims parents root := by
  intro d points
  by_cases rewired : ∃ e ∈ dim, x.Direct ∧ e ∈ x.own
  · obtain ⟨e, points', direct, here⟩ := rewired
    obtain ⟨d', own', eq, -⟩ := follows.1 e points' direct here
    obtain rfl := Option.some.inj (eq.symm.trans points)
    exact fresh_dim owned copied (D4Group.own_declared copy parents mem' own')
  · have stays : dim' = dim := follows.2 fun e points' both => rewired ⟨e, points', both⟩
    rw [stays] at points
    exact fun source => rewired ⟨d, points, own d points source⟩

theorem undisturbed_of_apart (ids : copy.ids = root.ids.map (fresh + ·)) (own : OwnDims parents h root)
    (outside : OutsideMaps parents h root) : Undisturbed parents root h' copy := by
  intro h'' arrays dims sendP
  refine ⟨fun x' mem' => ?_, fun y' mem' => dims _ (fresh_dim owned copied mem'), fun i mem' => sendP i ?_⟩
  · obtain ⟨x, mem, a, a', at_, at_', rewired⟩ := original_of_copy owned copied mem'
    refine arrayView_congr at_' (arrays _ (fresh_array owned copied mem')) ?_ ?_
    · intro dimension' there d points
      obtain ⟨i, lt', rfl⟩ := List.getElem_of_mem there
      have lt : i < a.shape.length := rewired.shape.length_eq ▸ lt'
      have follows := (rewired.shape.get lt lt').2
      exact dims d (apart_of_ownDims owned copied mem' follows (own x mem a at_ _ (List.getElem_mem lt)) d points)
    · rw [rewired.maps]
      intro m there i points
      exact arrays i (outside x mem a at_ m there i points)
  · rw [ids] at mem'
    obtain ⟨j, -, rfl⟩ := List.mem_map.mp mem'
    intro source
    have less := owned.ids _ source
    omega

theorem outsideMaps_of_undisturbed (undisturbed : Undisturbed parents root h' copy) : OutsideMaps parents h root := by
  intro x mem a at_ m there i points source
  obtain ⟨x', mem', a', at_', rewired⟩ := copy_of_original copied mem at_
  obtain ⟨b, at_b⟩ : ∃ b, h.arrays[i]? = some b := ⟨_, List.getElem?_eq_getElem (owned.arrays i source)⟩
  have at_b' := kept copied.arrays.old at_b
  -- the length of the source array is changed
  let h'' : Heap := { h' with arrays := h'.arrays.modify i fun b => { b with length := b.length + 1 } }
  have view := (undisturbed h''
    (fun j other => by
      have differs : i ≠ j := fun same => other (same ▸ source)
      simp [h'', differs])
    (fun _ _ => rfl) (fun _ _ => Iff.rfl)).1 x' mem'
  have apart : i ≠ x'.decl := fun same => fresh_array owned copied mem' (same ▸ source)
  have here : h''.arrays[x'.decl]? = some a' := by simp [h'', apart, at_']
  unfold arrayView at view
  rw [here, at_', Option.map_some, Option.map_some] at view
  have maps := congrArg (fun v => v.2.2) (Option.some.inj view)
  have same := List.map_inj_left.mp maps m (rewired.maps ▸ there)
  rw [Option.mem_def.mp points] at same
  simp only [Option.bind_some, h'', List.getElem?_modify, at_b', Option.map_eq_map, Option.map_some,
    if_true, Option.some_inj] at same
  have lengths := congrArg Array.length same
  simp at lengths

end

section

def oneDim : Heap where
  dims := [.declared ['d'] 2]
  arrays := [⟨[.ofD4 0 (.declared ['d'] 2)], 2, []⟩]
  sendP := []

def oneArray : List BaseType := [.array 1 ['x'] 0 (.simple 2 ['x'])]

/-- The array stands in the group that declares its dimension. -/
def besideDim : D4Group := .mk 0 ['/'] [0] [] oneArray []

/-- The array stands in a child group. -/
def belowDim : D4Group := .mk 0 ['/'] [0] [] [] [.mk 3 ['g'] [] [] oneArray []]

theorem besideDim_owned : Owned [] oneDim besideDim 3 where
  arrays := by decide
  dims := by decide
  ids := by decide
  once := by decide

theorem belowDim_owned : Owned [] oneDim belowDim 4 where
  arrays := by decide
  dims := by decide
  ids := by decide
  once := by decide

end

end Libdap.Dap4
