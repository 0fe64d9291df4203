import Libdap.Dap4.Marks
import Libdap.Dap4.SelfContained

/-! # The results of functions

The values of an expression are copied to the root group of a new DMR, and then the
dimensions and enumerations that they use are. The copies of the variables keep the
pointers of their originals.
-/

namespace Libdap.Dap4

namespace D4FunctionEvaluator

/-- The shared dimensions of the arrays of a group, each once, in the order in which they are met. -/
def dim_set (h : Heap) (vars : List BaseType) : List Nat :=
  (((arraysOf vars).flatMap h.shapeOf).filterMap Dimension.dim).foldl
    (fun set d4_dim => if d4_dim ∈ set then set else set ++ [d4_dim]) []

/-- The enumerations of the Enums of a group. -/
def enum_def_set (enumeration : Nat → Option D4EnumDef) (vars : List BaseType) : List D4EnumDef :=
  vars.filterMap fun
    | .simple id _ => enumeration id
    | .array .. | .constructor .. => none

section

-- what is added to the identity of a variable gives that of its copy, and the first new one for an enumeration
variable (fresh freshEnum : Nat)

/-- The enumerations of the Enums and of their copies, which point to the same. -/
def enumerations (enumeration : Nat → Option D4EnumDef) (id : Nat) : Option D4EnumDef :=
  if id < fresh then enumeration id else enumeration (id - fresh)

/-- `add_enum` of one after the other. -/
def add_enums (enum_defs : List D4EnumDef) : List D4EnumDef :=
  enum_defs.zipIdx.map fun e => { e.1 with id := freshEnum + e.2 }

/-- `eval`, for these values of the expressions, with the root group of a new DMR. `add_dim` copies as
    `D4Dimensions::m_duplicate` does. -/
def eval (enumeration : Nat → Option D4EnumDef) (values : List BaseType) (h : Heap) : D4Group × Heap :=
  let (vars, h) := BaseType.ptr_duplicate_vars fresh values h
  let (dims, h) := D4Dimensions.m_duplicate (dim_set h vars) h
  (.mk 0 ['/'] dims (add_enums freshEnum (enum_def_set (enumerations fresh enumeration) vars)) vars [], h)

end

/-- Everything that is referred to is declared once in the root group, under a name that nothing else has. -/
structure DeclaresOwn (root : D4Group) (h : Heap) (enumeration : Nat → Option D4EnumDef) : Prop where
  dims : ∀ x ∈ BaseType.arraysIn [] root.vars, ∀ d ∈ h.shapeOf x.2, ∀ dim ∈ d.dim, dim ∈ root.dims
  dimNames : (root.dims.map (D4Group.dimName h)).Nodup
  enums : ∀ id ∈ BaseType.idsIn root.vars, ∀ e ∈ enumeration id, e ∈ root.enumDefs
  enumNames : (root.enumDefs.map D4EnumDef.name).Nodup

/-- No value refers to a shared dimension or to an enumeration. -/
structure Plain (values : List BaseType) (h : Heap) (enumeration : Nat → Option D4EnumDef) : Prop where
  dims : ∀ x ∈ BaseType.arraysIn [] values, ∀ d ∈ h.shapeOf x.2, d.dim = none
  enums : ∀ id ∈ BaseType.idsIn values, enumeration id = none

/-- Values with what they point to. -/
structure Valid (freshEnum : Nat) (values : List BaseType) (h : Heap) (enumeration : Nat → Option D4EnumDef) :
    Prop where
  arrays : ∀ x ∈ BaseType.arraysIn [] values, x.2 < h.arrays.length
  dims : ∀ decl, ∀ d ∈ h.shapeOf decl, ∀ dim ∈ d.dim, dim < h.dims.length
  enums : ∀ id, ∀ e ∈ enumeration id, e.id < freshEnum

section

variable {fresh freshEnum : Nat} {values vars : List BaseType} {h : Heap} {enumeration : Nat → Option D4EnumDef}

theorem mem_dim_set {dim : Nat} (mem : dim ∈ dim_set h vars) :
    ∃ decl ∈ arraysOf vars, ∃ d ∈ h.shapeOf decl, dim ∈ d.dim := by
  have met : ∀ (ds set : List Nat), dim ∈ ds.foldl (fun set d4_dim => if d4_dim ∈ set then set else set ++ [d4_dim]) set →
      dim ∈ set ∨ dim ∈ ds := by
    intro ds
    induction ds with
    | nil => exact fun set mem => .inl mem
    | cons d ds ih =>
        intro set mem
        rw [List.foldl_cons] at mem
        rcases ih _ mem with old | rest
        · split at old
          · exact .inl old
          · rcases List.mem_append.mp old with old | new
            · exact .inl old
            · exact .inr (List.mem_cons.mpr (.inl (List.mem_singleton.mp new)))
        · exact .inr (List.mem_cons_of_mem _ rest)
  have there := (met _ [] mem).resolve_left List.not_mem_nil
  obtain ⟨d, mem, points⟩ := List.mem_filterMap.mp there
  obtain ⟨decl, mem, inside⟩ := List.mem_flatMap.mp mem
  exact ⟨decl, mem, d, inside, points⟩

theorem arraysOf_sub {decl : Nat} (mem : decl ∈ arraysOf vars) : ∃ x ∈ BaseType.arraysIn [] vars, x.2 = decl := by
  induction vars with
  | nil => cases mem
  | cons b vars ih =>
      rw [BaseType.arraysIn]
      have later (there : decl ∈ arraysOf vars) :
          ∃ x ∈ b.arrays ([] ++ [.field b.name]) ++ BaseType.arraysIn [] vars, x.2 = decl := by
        obtain ⟨x, mem, same⟩ := ih there
        exact ⟨x, List.mem_append_right _ mem, same⟩
      cases b with
      | simple | constructor => exact later (by simpa [arraysOf] using mem)
      | array id name decl' proto =>
          rcases List.mem_cons.mp (show decl ∈ decl' :: arraysOf vars by simpa [arraysOf] using mem) with rfl | mem
          · exact ⟨(_, decl), List.mem_append_left _ (by rw [BaseType.arrays]; exact List.mem_append_right _ List.mem_cons_self), rfl⟩
          · exact later mem

theorem mem_enum_def_set {e : D4EnumDef} (mem : e ∈ enum_def_set enumeration vars) :
    ∃ id ∈ BaseType.idsIn vars, e ∈ enumeration id := by
  obtain ⟨b, there, points⟩ := List.mem_filterMap.mp mem
  cases b with
  | simple id name => exact ⟨id, BaseType.idsIn_of_mem there (by rw [BaseType.ids]; exact List.mem_cons_self), points⟩
  | array | constructor => cases points

theorem enumerations_copy (id : Nat) : enumerations fresh enumeration (fresh + id) = enumeration id := by
  rw [enumerations, if_neg (by omega), Nat.add_sub_cancel_left]

theorem dim_set_plain (plain : ∀ x ∈ BaseType.arraysIn [] vars, ∀ d ∈ h.shapeOf x.2, d.dim = none) :
    dim_set h vars = [] := by
  rw [List.eq_nil_iff_forall_not_mem]
  intro dim mem
  obtain ⟨decl, there, d, inside, points⟩ := mem_dim_set mem
  obtain ⟨x, mem, rfl⟩ := arraysOf_sub there
  rw [plain x mem d inside] at points
  cases points

theorem enum_def_set_plain (plain : ∀ id ∈ BaseType.idsIn vars, enumeration id = none) :
    enum_def_set enumeration vars = [] := by
  rw [List.eq_nil_iff_forall_not_mem]
  intro e mem
  obtain ⟨id, there, points⟩ := mem_enum_def_set mem
  rw [plain id there] at points
  cases points

end

end D4FunctionEvaluator

end Libdap.Dap4
