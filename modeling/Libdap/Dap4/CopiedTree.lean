import Libdap.Dap4.GroupCopy
import Libdap.Dap4.LookupVar
import Libdap.Foundation.Copying

/-! # The arrays and dimensions of a tree and of its copy

The trees are flattened to lists of what has an address, each with the place where
it stands, and a copy is then a walk along both lists. What a copied array points
to depends on where it stands: only the arrays that are variables of a group
themselves come to point to the copies of that group's dimensions.
-/

namespace Libdap.Dap4

mutual

/-- The arrays in a variable, in the order in which they are copied. -/
def BaseType.arrays (q : List Step) : BaseType → List (List Step × Nat)
  | .simple .. => []
  | .array _ _ decl proto => arrays (q ++ [.element]) proto ++ [(q, decl)]
  | .constructor _ _ _ vars => arraysIn q vars

def BaseType.arraysIn (q : List Step) : List BaseType → List (List Step × Nat)
  | [] => []
  | b :: bs => arrays (q ++ [.field b.name]) b ++ arraysIn q bs

end

/-- An array, with the names of its group and of the group's parents and the dimensions
    that the group declares. -/
structure Placed where
  groups : List Name
  own : List Nat
  containers : List Step
  decl : Nat

namespace Placed

/-- The array is a variable of the group itself. -/
def Direct (x : Placed) : Prop := x.containers.length = 1

instance (x : Placed) : Decidable x.Direct := inferInstanceAs (Decidable (_ = _))

end Placed

namespace D4Group

mutual

def placed (parents : List Name) : D4Group → List Placed
  | .mk _ name dims _ vars groups =>
    (BaseType.arraysIn [] vars).map (fun x => ⟨name :: parents, dims, x.1, x.2⟩) ++
      placedIn (name :: parents) groups

def placedIn (parents : List Name) : List D4Group → List Placed
  | [] => []
  | g :: gs => placed parents g ++ placedIn parents gs

end

mutual

/-- The shared dimensions that the groups of a tree declare. -/
def declares (parents : List Name) : D4Group → List (List Name × Nat)
  | .mk _ name dims _ _ groups => dims.map (fun dim => (name :: parents, dim)) ++ declaresIn (name :: parents) groups

def declaresIn (parents : List Name) : List D4Group → List (List Name × Nat)
  | [] => []
  | g :: gs => declares parents g ++ declaresIn parents gs

end

end D4Group

/-- Nothing is changed. -/
def Same {ι κ α : Type} (key : ι → κ) (x x' : ι) (a a' : α) : Prop := key x = key x' ∧ a' = a

namespace BaseType

variable {fresh : Nat}

theorem copySendP_dims (h : Heap) (id id' : Nat) : (h.copySendP id id').dims = h.dims := by
  unfold Heap.copySendP
  split <;> rfl

theorem copySendP_arrays (h : Heap) (id id' : Nat) : (h.copySendP id id').arrays = h.arrays := by
  unfold Heap.copySendP
  split <;> rfl

theorem ptr_duplicate_name (b : BaseType) (h : Heap) : (b.ptr_duplicate fresh h).1.name = b.name := by
  cases b <;> rw [ptr_duplicate] <;> rfl

mutual

theorem ptr_duplicate_dims (b : BaseType) (h : Heap) : (b.ptr_duplicate fresh h).2.dims = h.dims := by
  cases b with
  | simple id name => exact copySendP_dims h id _
  | array id name decl proto =>
      rw [ptr_duplicate]
      exact (ptr_duplicate_dims proto _).trans (copySendP_dims h id _)
  | constructor id name kind vars =>
      rw [ptr_duplicate]
      exact (ptr_duplicate_vars_dims vars _).trans (copySendP_dims h id _)

theorem ptr_duplicate_vars_dims (vars : List BaseType) (h : Heap) :
    (ptr_duplicate_vars fresh vars h).2.dims = h.dims := by
  cases vars with
  | nil => rfl
  | cons b bs =>
      rw [ptr_duplicate_vars]
      exact (ptr_duplicate_vars_dims bs _).trans (ptr_duplicate_dims b h)

end

mutual

/-- Each array in a variable is copied as it is. -/
theorem ptr_duplicate_arrays (b : BaseType) (q : List Step) (h : Heap)
    (valid : ∀ x ∈ b.arrays q, x.2 < h.arrays.length) :
    CopiedTo Prod.snd (Same Prod.fst) h.arrays (b.ptr_duplicate fresh h).2.arrays (b.arrays q)
      ((b.ptr_duplicate fresh h).1.arrays q) := by
  cases b with
  | simple id name =>
      rw [ptr_duplicate, arrays, arrays, copySendP_arrays]
      exact .nil _
  | array id name decl proto =>
      rw [ptr_duplicate, arrays, arrays]
      rw [arrays] at valid
      have inside : ∀ x ∈ proto.arrays (q ++ [.element]), x.2 < (h.copySendP id (fresh + id)).arrays.length := by
        intro x mem
        rw [copySendP_arrays]
        exact valid x (List.mem_append_left _ mem)
      have first := ptr_duplicate_arrays proto _ _ inside
      have there : decl < h.arrays.length := valid (q, decl) (by simp)
      rw [copySendP_arrays] at first
      obtain ⟨a, at_⟩ : ∃ a, h.arrays[decl]? = some a := ⟨_, List.getElem?_eq_getElem there⟩
      have at_' := kept first.old at_
      simp only [at_', Option.toList_some]
      exact first.append (.single at_' rfl ⟨rfl, rfl⟩)
  | constructor id name kind vars =>
      rw [ptr_duplicate, arrays, arrays]
      rw [arrays] at valid
      have all := ptr_duplicate_vars_arrays vars q (h.copySendP id (fresh + id))
      rw [copySendP_arrays] at all
      exact all valid

theorem ptr_duplicate_vars_arrays (vars : List BaseType) (q : List Step) (h : Heap)
    (valid : ∀ x ∈ arraysIn q vars, x.2 < h.arrays.length) :
    CopiedTo Prod.snd (Same Prod.fst) h.arrays (ptr_duplicate_vars fresh vars h).2.arrays (arraysIn q vars)
      (arraysIn q (ptr_duplicate_vars fresh vars h).1) := by
  cases vars with
  | nil =>
      rw [ptr_duplicate_vars, arraysIn]
      exact .nil _
  | cons b bs =>
      rw [ptr_duplicate_vars, arraysIn, arraysIn, ptr_duplicate_name]
      rw [arraysIn] at valid
      have first := ptr_duplicate_arrays b (q ++ [.field b.name]) h
        fun x mem => valid x (List.mem_append_left _ mem)
      have more := first.size
      have rest := ptr_duplicate_vars_arrays bs q (b.ptr_duplicate fresh h).2 fun x mem => by
        have there := valid x (List.mem_append_right _ mem)
        omega
      exact first.append rest

end

mutual

theorem length_arrays (q : List Step) (b : BaseType) (x : List Step × Nat) (mem : x ∈ b.arrays q) :
    q.length ≤ x.1.length ∧ (x.1.length = q.length → x.2 ∈ arraysOf [b]) := by
  cases b with
  | simple id name =>
      rw [arrays] at mem
      cases mem
  | array id name decl proto =>
      rw [arrays] at mem
      rcases List.mem_append.mp mem with inside | here
      · have longer := (length_arrays (q ++ [.element]) proto x inside).1
        rw [List.length_append, List.length_singleton] at longer
        exact ⟨by omega, fun same => by omega⟩
      · obtain rfl := List.mem_singleton.mp here
        exact ⟨le_rfl, fun _ => by simp [arraysOf]⟩
  | constructor id name kind vars =>
      rw [arrays] at mem
      have longer := length_arraysIn q vars x mem
      exact ⟨by omega, fun same => by omega⟩

theorem length_arraysIn (q : List Step) (vars : List BaseType) (x : List Step × Nat) (mem : x ∈ arraysIn q vars) :
    q.length < x.1.length := by
  cases vars with
  | nil =>
      rw [arraysIn] at mem
      cases mem
  | cons b bs =>
      rw [arraysIn] at mem
      rcases List.mem_append.mp mem with inside | rest
      · have longer := (length_arrays (q ++ [.field b.name]) b x inside).1
        rw [List.length_append, List.length_singleton] at longer
        omega
      · exact length_arraysIn q bs x rest

end

theorem arraysOf_cons (b : BaseType) (bs : List BaseType) : arraysOf (b :: bs) = arraysOf [b] ++ arraysOf bs :=
  List.filterMap_append (l := [b])

/-- The arrays behind the shortest paths are the variables themselves. -/
theorem mem_arraysOf {vars : List BaseType} {decl : Nat} :
    decl ∈ arraysOf vars ↔ ∃ q, (q, decl) ∈ arraysIn [] vars ∧ q.length = 1 := by
  induction vars with
  | nil => simp [arraysOf, arraysIn]
  | cons b bs ih =>
      rw [arraysOf_cons, List.mem_append, ih]
      simp only [arraysIn, List.nil_append, List.mem_append]
      constructor
      · rintro (here | ⟨q, mem, direct⟩)
        · cases b with
          | array id name decl' proto =>
              obtain rfl : decl = decl' := by simpa [arraysOf] using here
              exact ⟨[.field name], .inl (by simp [arrays, BaseType.name]), rfl⟩
          | simple | constructor => simp [arraysOf] at here
        · exact ⟨q, .inr mem, direct⟩
      · rintro ⟨q, mem | mem, direct⟩
        · exact .inl ((length_arrays _ b _ mem).2 direct)
        · exact .inr ⟨q, mem, direct⟩

theorem arraysOf_sublist (vars : List BaseType) : (arraysOf vars).Sublist ((arraysIn [] vars).map Prod.snd) := by
  induction vars with
  | nil => exact .slnil
  | cons b bs ih =>
      rw [arraysOf_cons, arraysIn, List.map_append]
      refine List.Sublist.append ?_ ih
      cases b with
      | array id name decl proto =>
          rw [arrays, List.map_append]
          exact List.sublist_append_right _ [decl]
      | simple | constructor => exact List.nil_sublist _

end BaseType

theorem m_duplicate_arrays (dims : List Nat) (h : Heap) : (D4Dimensions.m_duplicate dims h).2.arrays = h.arrays := by
  induction dims generalizing h with
  | nil => rfl
  | cons dim dims ih =>
      rw [D4Dimensions.m_duplicate]
      exact ih _

theorem m_duplicate_dims (dims : List Nat) (h : Heap) (valid : ∀ dim ∈ dims, dim < h.dims.length) :
    CopiedTo id (fun _ _ s s' => s' = s) h.dims (D4Dimensions.m_duplicate dims h).2.dims dims
      (D4Dimensions.m_duplicate dims h).1 := by
  induction dims generalizing h with
  | nil => exact .nil _
  | cons dim dims ih =>
      rw [D4Dimensions.m_duplicate]
      have there := valid dim List.mem_cons_self
      have at_ := List.getElem?_eq_getElem there
      have first : CopiedTo id (fun _ _ s s' => s' = s) h.dims (h.dims ++ [h.dims[dim]]) [dim] [h.dims.length] :=
        .single at_ rfl rfl
      have rest := ih { h with dims := h.dims ++ (h.dims[dim]?).toList } fun d mem => by
        have bound := valid d (List.mem_cons_of_mem dim mem)
        simp only [List.length_append]
        omega
      simp only [at_, Option.toList_some] at rest ⊢
      exact first.append rest

/-- A pointer to something else stays what it is. -/
theorem rewire_of_not_mem {h : Heap} {old_dims new_dims : List Nat} {dim : Option Nat}
    (other : ∀ d ∈ dim, d ∉ old_dims) : rewire h old_dims new_dims dim = dim := by
  unfold rewire
  induction old_dims with
  | nil => rfl
  | cons old olds ih =>
      have differs : dim ≠ some old := fun same => other old same List.mem_cons_self
      rw [List.foldl_cons, if_neg differs]
      exact ih fun d mem there => other d mem (List.mem_cons_of_mem old there)

/-- A pointer to one of the old dimensions becomes one to the new dimension with the same name. -/
theorem rewire_of_mem {h : Heap} {old_dims new_dims : List Nat} {d : Nat} (mem : d ∈ old_dims)
    (apart : ∀ d' ∈ new_dims, d' ∉ old_dims) {s : D4Dimension} (at_ : h.dims[d]? = some s) :
    rewire h old_dims new_dims (some d) = D4Dimensions.find_dim h new_dims s.name := by
  have found : ∀ d' ∈ D4Dimensions.find_dim h new_dims s.name, d' ∉ old_dims := fun d' found =>
    apart d' (List.mem_of_find?_eq_some found)
  unfold rewire
  induction old_dims with
  | nil => cases mem
  | cons old olds ih =>
      rw [List.foldl_cons]
      have found' : ∀ d' ∈ D4Dimensions.find_dim h new_dims s.name, d' ∉ olds := fun d' found' there =>
        found d' found' (List.mem_cons_of_mem old there)
      by_cases here : d = old
      · subst here
        rw [if_pos rfl, at_, Option.bind_some]
        exact rewire_of_not_mem found'
      · have differs : some d ≠ some old := fun same => here (Option.some.inj same)
        rw [if_neg differs]
        rcases List.mem_cons.mp mem with same | mem
        · exact absurd same here
        · exact ih mem (fun d' mem' there => apart d' mem' (List.mem_cons_of_mem old there)) found'

/-- What becomes of a pointer when its array is copied: where it points to a dimension of the
    array's own group it comes to point to a new one with that name, and else it stays. -/
def Follows (h : Heap) (x x' : Placed) (dim dim' : Option Nat) : Prop :=
  (∀ d ∈ dim, x.Direct → d ∈ x.own → ∃ d' ∈ x'.own, dim' = some d' ∧
    ∃ s s', h.dims[d]? = some s ∧ h.dims[d']? = some s' ∧ s'.name = s.name) ∧
  ((∀ d ∈ dim, ¬ (x.Direct ∧ d ∈ x.own)) → dim' = dim)

/-- An array and its copy: they stand in the same place and differ in the pointers of the
    dimensions at most. -/
structure Rewired (h : Heap) (x x' : Placed) (a a' : Array) : Prop where
  groups : x'.groups = x.groups
  containers : x'.containers = x.containers
  length : a'.length = a.length
  maps : a'.maps = a.maps
  shape : List.Forall₂ (fun d d' => d' = { d with dim := d'.dim } ∧ Follows h x x' d.dim d'.dim) a.shape a'.shape

theorem Follows.later {h h' : Heap} {x x' : Placed} {dim dim' : Option Nat} (follows : Follows h x x' dim dim')
    (old : h.dims <+: h'.dims) : Follows h' x x' dim dim' := by
  refine ⟨fun d mem direct own => ?_, follows.2⟩
  obtain ⟨d', own', points, s, s', at_, at_', same⟩ := follows.1 d mem direct own
  exact ⟨d', own', points, s, s', kept old at_, kept old at_', same⟩

theorem Rewired.later {h h' : Heap} {x x' : Placed} {a a' : Array} (rewired : Rewired h x x' a a')
    (old : h.dims <+: h'.dims) : Rewired h' x x' a a' :=
  { rewired with shape := rewired.shape.imp fun _ _ both => ⟨both.1, both.2.later old⟩ }

/-- `update_dimension_pointers` for one array. -/
def rewireShape (h : Heap) (old_dims new_dims : List Nat) (a : Array) : Array :=
  { a with shape := a.shape.map fun d => { d with dim := rewire h old_dims new_dims d.dim } }

theorem rewire_congr {h h' : Heap} (same : h.dims = h'.dims) : rewire h = rewire h' := by
  unfold rewire D4Dimensions.find_dim
  rw [same]

theorem rewireShape_congr {h h' : Heap} (same : h.dims = h'.dims) : rewireShape h = rewireShape h' := by
  unfold rewireShape
  rw [rewire_congr same]

theorem update_all_dims (old_dims new_dims targets : List Nat) (h : Heap) :
    (targets.foldl (update_dimension_pointers old_dims new_dims) h).dims = h.dims := by
  induction targets generalizing h with
  | nil => rfl
  | cons t ts ih =>
      rw [List.foldl_cons]
      exact ih _

theorem update_all_arrays (old_dims new_dims targets : List Nat) (h : Heap) :
    (targets.foldl (update_dimension_pointers old_dims new_dims) h).arrays =
      targets.foldl (fun cells t => cells.modify t (rewireShape h old_dims new_dims)) h.arrays := by
  induction targets generalizing h with
  | nil => rfl
  | cons t ts ih =>
      rw [List.foldl_cons, List.foldl_cons, ih]
      have same : rewireShape (update_dimension_pointers old_dims new_dims h t) = rewireShape h :=
        rewireShape_congr rfl
      rw [same]
      rfl

theorem rewired_of_not_direct {h : Heap} {x x' : Placed} (groups : x'.groups = x.groups)
    (containers : x'.containers = x.containers) (deep : ¬ x.Direct) (a : Array) : Rewired h x x' a a := by
  refine ⟨groups, containers, rfl, rfl, List.forall₂_same.mpr fun d _ => ⟨rfl, ?_, fun _ => rfl⟩⟩
  exact fun _ _ direct => absurd direct deep

/-- The dimension that a rewired pointer finds. -/
theorem find_copy {h h' : Heap} {own own' : List Nat}
    (copied : CopiedTo id (fun _ _ s s' => s' = s) h.dims h'.dims own own') {d : Nat} (mem : d ∈ own)
    {s : D4Dimension} (at_ : h.dims[d]? = some s) :
    ∃ d' ∈ own', D4Dimensions.find_dim h' own' s.name = some d' ∧
      ∃ s', h'.dims[d']? = some s' ∧ s'.name = s.name := by
  obtain ⟨i, lt, rfl⟩ := List.getElem_of_mem mem
  have lt' : i < own'.length := copied.each.length_eq ▸ lt
  obtain ⟨s', here, same⟩ := copied.each.get lt lt' s at_
  rw [same] at here
  have some_ : (D4Dimensions.find_dim h' own' s.name).isSome := by
    unfold D4Dimensions.find_dim
    rw [List.find?_isSome]
    refine ⟨own'[i], List.getElem_mem lt', ?_⟩
    simp only [id, List.get_eq_getElem] at here
    simp [here]
  obtain ⟨d', found⟩ := Option.isSome_iff_exists.mp some_
  refine ⟨d', List.mem_of_find?_eq_some found, found, ?_⟩
  have named := List.find?_some found
  rw [Option.any_eq_true] at named
  obtain ⟨s', at_', same⟩ := named
  exact ⟨s', at_', by simpa using same⟩

theorem rewired_of_direct {h h' : Heap} {x x' : Placed} (groups : x'.groups = x.groups)
    (containers : x'.containers = x.containers) (direct : x.Direct)
    (copied : CopiedTo id (fun _ _ s s' => s' = s) h.dims h'.dims x.own x'.own)
    (valid : ∀ d ∈ x.own, d < h.dims.length) (a : Array) : Rewired h' x x' a (rewireShape h' x.own x'.own a) := by
  have apart : ∀ d' ∈ x'.own, d' ∉ x.own := by
    intro d' mem' mem
    exact absurd (valid d' mem) (Nat.not_lt.mpr (copied.fresh mem').1)
  refine ⟨groups, containers, rfl, rfl, ?_⟩
  rw [rewireShape, List.forall₂_map_right_iff]
  refine List.forall₂_same.mpr fun dimension _ => ⟨rfl, ?_, ?_⟩
  · intro d points _ own
    obtain ⟨s, at_⟩ : ∃ s, h.dims[d]? = some s := ⟨_, List.getElem?_eq_getElem (valid d own)⟩
    obtain ⟨d', own', found, s', at_', same⟩ := find_copy copied own at_
    refine ⟨d', own', ?_, s, s', kept copied.old at_, at_', same⟩
    rw [Option.mem_def.mp points, rewire_of_mem own apart (kept copied.old at_), found]
  · intro other
    exact rewire_of_not_mem fun d mem own => other d mem ⟨direct, own⟩

namespace D4Group

variable {fresh : Nat}

theorem ptr_duplicate_name (g : D4Group) (h : Heap) : (g.ptr_duplicate fresh h).1.name = g.name := by
  cases g
  rw [ptr_duplicate]
  rfl

/-- What is copied of a tree goes to the end of the heap, and each array is copied as its place
    says. -/
structure Copied (h h' : Heap) (arrays arrays' : List Placed) (dims dims' : List (List Name × Nat)) : Prop where
  arrays : CopiedTo Placed.decl (Rewired h') h.arrays h'.arrays arrays arrays'
  dims : CopiedTo Prod.snd (Same Prod.fst) h.dims h'.dims dims dims'

theorem Copied.append {h h' h'' : Heap} {xs xs' xs₂ xs₂' : List Placed}
    {ds ds' ds₂ ds₂' : List (List Name × Nat)} (first : Copied h h' xs xs' ds ds') (then_ : Copied h' h'' xs₂ xs₂' ds₂ ds₂') :
    Copied h h'' (xs ++ xs₂) (xs' ++ xs₂') (ds ++ ds₂) (ds' ++ ds₂') where
  arrays := (first.arrays.imp fun _ _ _ _ _ _ rewired => rewired.later then_.dims.old).append then_.arrays
  dims := first.dims.append then_.dims

theorem Copied.of_copySendP {h h' : Heap} {id id' : Nat} {xs xs' : List Placed} {ds ds' : List (List Name × Nat)}
    (copied : Copied (h.copySendP id id') h' xs xs' ds ds') : Copied h h' xs xs' ds ds' := by
  obtain ⟨arrays, dims⟩ := copied
  rw [BaseType.copySendP_arrays] at arrays
  rw [BaseType.copySendP_dims] at dims
  exact ⟨arrays, dims⟩

/-- What a group has of its own, before its child groups are copied. -/
theorem own_copied (fresh : Nat) (name : Name) (parents : List Name) (dims : List Nat) (vars : List BaseType) (h : Heap)
    (valid : ∀ x ∈ BaseType.arraysIn [] vars, x.2 < h.arrays.length) (valid' : ∀ d ∈ dims, d < h.dims.length) :
    let copy := BaseType.ptr_duplicate_vars fresh vars h
    let dims' := D4Dimensions.m_duplicate dims copy.2
    let h' := (arraysOf copy.1).foldl (update_dimension_pointers dims dims'.1) dims'.2
    Copied h h' ((BaseType.arraysIn [] vars).map fun x => ⟨name :: parents, dims, x.1, x.2⟩)
      ((BaseType.arraysIn [] copy.1).map fun x => ⟨name :: parents, dims'.1, x.1, x.2⟩)
      (dims.map fun d => (name :: parents, d)) (dims'.1.map fun d => (name :: parents, d)) := by
  intro copy dims' h'
  have vars_ : CopiedTo Prod.snd (Same Prod.fst) h.arrays copy.2.arrays (BaseType.arraysIn [] vars)
      (BaseType.arraysIn [] copy.1) := BaseType.ptr_duplicate_vars_arrays vars [] h valid
  have heapDims : copy.2.dims = h.dims := BaseType.ptr_duplicate_vars_dims vars h
  have dims_ := m_duplicate_dims dims copy.2 (by rw [heapDims]; exact valid')
  rw [heapDims] at dims_
  have sameDims : h'.dims = dims'.2.dims := update_all_dims dims dims'.1 (arraysOf copy.1) dims'.2
  have direct : ∀ x ∈ BaseType.arraysIn [] copy.1, x.2 ∈ arraysOf copy.1 ↔ x.1.length = 1 := by
    intro x mem
    rw [BaseType.mem_arraysOf]
    constructor
    · rintro ⟨q, mem', one⟩
      have same : x = (q, x.2) := List.inj_on_of_nodup_map vars_.nodup mem mem' rfl
      rw [same]
      exact one
    · intro one
      exact ⟨x.1, mem, one⟩
  constructor
  · have updated : h'.arrays = (arraysOf copy.1).foldl
        (fun cells t => cells.modify t (rewireShape dims'.2 dims dims'.1)) copy.2.arrays := by
      rw [← m_duplicate_arrays dims copy.2]
      exact update_all_arrays dims dims'.1 (arraysOf copy.1) dims'.2
    have once : (arraysOf copy.1).Nodup := (BaseType.arraysOf_sublist copy.1).nodup vars_.nodup
    have new : ∀ t ∈ arraysOf copy.1, h.arrays.length ≤ t := by
      intro t mem
      obtain ⟨q, mem', -⟩ := BaseType.mem_arraysOf.mp mem
      exact (vars_.fresh mem').1
    rw [updated]
    refine (vars_.modify _ _ once new).map _ _ (fun _ => rfl) (fun _ => rfl) ?_
    rintro x - x' mem a a' ⟨b, ⟨same, rfl⟩, rfl⟩
    have place : Placed.groups ⟨name :: parents, dims'.1, x'.1, x'.2⟩ =
        Placed.groups ⟨name :: parents, dims, x.1, x.2⟩ := rfl
    by_cases one : Placed.Direct ⟨name :: parents, dims, x.1, x.2⟩
    · have one' : x'.1.length = 1 := same ▸ one
      rw [if_pos ((direct x' mem).mpr one'), ← rewireShape_congr sameDims]
      rw [← sameDims] at dims_
      exact rewired_of_direct place same.symm one dims_ valid' b
    · have deep : x'.2 ∉ arraysOf copy.1 := fun mem' => one (same ▸ (direct x' mem).mp mem')
      rw [if_neg deep]
      exact rewired_of_not_direct place same.symm one b
  · rw [sameDims]
    exact dims_.map _ _ (fun _ => rfl) (fun _ => rfl) fun _ _ _ _ _ _ same => ⟨rfl, same⟩

mutual

theorem ptr_duplicate_copied (g : D4Group) (parents : List Name) (h : Heap)
    (valid : ∀ x ∈ g.placed parents, x.decl < h.arrays.length)
    (valid' : ∀ y ∈ g.declares parents, y.2 < h.dims.length) :
    Copied h (g.ptr_duplicate fresh h).2 (g.placed parents) ((g.ptr_duplicate fresh h).1.placed parents)
      (g.declares parents) ((g.ptr_duplicate fresh h).1.declares parents) := by
  cases g with
  | mk id name dims enumDefs vars groups =>
      rw [placed] at valid
      rw [declares] at valid'
      rw [ptr_duplicate, placed, placed, declares, declares]
      have vars_ : ∀ x ∈ BaseType.arraysIn [] vars, x.2 < (h.copySendP id (fresh + id)).arrays.length := by
        intro x mem
        rw [BaseType.copySendP_arrays]
        exact valid _ (List.mem_append_left _ (List.mem_map_of_mem mem))
      have dims_ : ∀ d ∈ dims, d < (h.copySendP id (fresh + id)).dims.length := by
        intro d mem
        rw [BaseType.copySendP_dims]
        exact valid' _ (List.mem_append_left _ (List.mem_map_of_mem mem))
      have first := (own_copied fresh name parents dims vars _ vars_ dims_).of_copySendP
      have more := first.arrays.size
      have more' := first.dims.size
      have rest := ptr_duplicate_groups_copied groups (name :: parents) _
        (fun x mem => by
          have there := valid x (List.mem_append_right _ mem)
          rw [more]
          exact Nat.lt_add_right _ there)
        (fun y mem => by
          have there := valid' y (List.mem_append_right _ mem)
          rw [more']
          exact Nat.lt_add_right _ there)
      exact first.append rest

theorem ptr_duplicate_groups_copied (gs : List D4Group) (parents : List Name) (h : Heap)
    (valid : ∀ x ∈ placedIn parents gs, x.decl < h.arrays.length)
    (valid' : ∀ y ∈ declaresIn parents gs, y.2 < h.dims.length) :
    Copied h (ptr_duplicate_groups fresh gs h).2 (placedIn parents gs)
      (placedIn parents (ptr_duplicate_groups fresh gs h).1) (declaresIn parents gs)
      (declaresIn parents (ptr_duplicate_groups fresh gs h).1) := by
  cases gs with
  | nil =>
      rw [ptr_duplicate_groups, placedIn, declaresIn]
      exact ⟨.nil _, .nil _⟩
  | cons g gs =>
      rw [placedIn] at valid
      rw [declaresIn] at valid'
      rw [ptr_duplicate_groups, placedIn, placedIn, declaresIn, declaresIn]
      have first := ptr_duplicate_copied g parents h (fun x mem => valid x (List.mem_append_left _ mem))
        (fun y mem => valid' y (List.mem_append_left _ mem))
      have more := first.arrays.size
      have more' := first.dims.size
      have rest := ptr_duplicate_groups_copied gs parents (g.ptr_duplicate fresh h).2
        (fun x mem => by
          have there := valid x (List.mem_append_right _ mem)
          omega)
        (fun y mem => by
          have there := valid' y (List.mem_append_right _ mem)
          omega)
      exact first.append rest

end

end D4Group

end Libdap.Dap4
