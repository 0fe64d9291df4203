import Libdap.Dap4.LookupInverse
import Libdap.Dap4.MarkedArrays
import Libdap.Dap4.SelfContained

/-! # The constrained DMR

What of the response mentions dimensions: the declarations that the groups print
and the references and sizes that the arrays print.
-/

namespace Libdap.Dap4

/-- The parts of a response that are about dimensions. A reference and a size are those of one
    dimension of an array. -/
inductive Printed where
  | declaration (dim : Nat)
  | reference (decl : Nat) (dim : Option Nat)
  | size (decl : Nat) (cSize : Int)
  deriving Repr, DecidableEq

namespace Heap

def used (h : Heap) (dim : Nat) : Bool := (h.dims[dim]?).any D4Dimension.usedByProjectedVar

end Heap

/-- `D4Dimensions::print_dap4`, with a constraint. -/
def D4Dimensions.print_dap4 (h : Heap) (dims : List Nat) : List Printed :=
  (dims.filter h.used).map .declaration

/-- `PrintD4ArrayDimXMLWriter`, with a constraint. -/
def printDim (decl : Nat) (d : Dimension) : Printed :=
  if d.useSdimForSlice then .reference decl d.dim else .size decl d.cSize

mutual

/-- `print_dap4` of an array, a structure or a sequence, with a constraint. An array prints the
    fields of its template whether that is to be sent or not. -/
def BaseType.print_dap4 (h : Heap) : BaseType → List Printed
  | .simple .. => []
  | .array id _ decl proto =>
    if id ∈ h.sendP then print_template h proto ++ (h.shapeOf decl).map (printDim decl) else []
  | .constructor id _ _ vars => if id ∈ h.sendP then print_vars h vars else []

def BaseType.print_template (h : Heap) : BaseType → List Printed
  | .constructor _ _ _ vars => print_vars h vars
  | .simple .. | .array .. => []

def BaseType.print_vars (h : Heap) : List BaseType → List Printed
  | [] => []
  | b :: bs => print_dap4 h b ++ print_vars h bs

end

namespace D4Group

/-- The root group is printed in any case, and so is one without a name. -/
def printed (h : Heap) (g : D4Group) : Prop := g.name = [] ∨ g.name = ['/'] ∨ g.id ∈ h.sendP

instance (h : Heap) (g : D4Group) : Decidable (g.printed h) :=
  inferInstanceAs (Decidable (g.name = [] ∨ g.name = ['/'] ∨ g.id ∈ h.sendP))

mutual

def print_dap4 (h : Heap) : D4Group → List Printed
  | .mk id name dims enumDefs vars groups =>
    if printed h (.mk id name dims enumDefs vars groups) then
      D4Dimensions.print_dap4 h dims ++ BaseType.print_vars h vars ++ print_groups h groups
    else []

def print_groups (h : Heap) : List D4Group → List Printed
  | [] => []
  | g :: gs => print_dap4 h g ++ print_groups h gs

end

end D4Group

/-- A reference is printed for a dimension of the array that has no slice of its own. -/
def Referenced (h : Heap) (decl : Nat) (dim : Option Nat) : Prop :=
  ∃ d ∈ h.shapeOf decl, d.useSdimForSlice = true ∧ d.dim = dim

section

variable {h : Heap} {decl : Nat} {dim : Option Nat}

theorem referenced_of_printDim {decl' : Nat} (mem : .reference decl dim ∈ (h.shapeOf decl').map (printDim decl')) :
    Referenced h decl dim := by
  obtain ⟨d, there, eq⟩ := List.mem_map.mp mem
  unfold printDim at eq
  split at eq
  · rename_i shares
    cases eq
    exact ⟨d, there, shares, rfl⟩
  · cases eq

mutual

theorem referenced_of_print (b : BaseType) (mem : .reference decl dim ∈ b.print_dap4 h) : Referenced h decl dim := by
  cases b with
  | simple =>
      rw [BaseType.print_dap4] at mem
      cases mem
  | array id name decl' proto =>
      rw [BaseType.print_dap4] at mem
      split at mem
      · rcases List.mem_append.mp mem with inside | here
        · exact referenced_of_template proto inside
        · exact referenced_of_printDim here
      · cases mem
  | constructor id name kind vars =>
      rw [BaseType.print_dap4] at mem
      split at mem
      · exact referenced_of_vars vars mem
      · cases mem

theorem referenced_of_template (b : BaseType) (mem : .reference decl dim ∈ b.print_template h) :
    Referenced h decl dim := by
  cases b with
  | simple | array =>
      rw [BaseType.print_template] at mem
      cases mem
  | constructor id name kind vars =>
      rw [BaseType.print_template] at mem
      exact referenced_of_vars vars mem

theorem referenced_of_vars (vars : List BaseType) (mem : .reference decl dim ∈ BaseType.print_vars h vars) :
    Referenced h decl dim := by
  cases vars with
  | nil =>
      rw [BaseType.print_vars] at mem
      cases mem
  | cons b bs =>
      rw [BaseType.print_vars] at mem
      rcases List.mem_append.mp mem with first | rest
      · exact referenced_of_print b first
      · exact referenced_of_vars bs rest

end

theorem not_reference_of_dims {dims : List Nat} : .reference decl dim ∉ D4Dimensions.print_dap4 h dims := by
  intro mem
  obtain ⟨d, -, eq⟩ := List.mem_map.mp mem
  cases eq

mutual

/-- Every reference in the response is printed for a dimension of that array. -/
theorem referenced_of_group (g : D4Group) (mem : .reference decl dim ∈ g.print_dap4 h) : Referenced h decl dim := by
  cases g with
  | mk id name dims enumDefs vars groups =>
      rw [D4Group.print_dap4] at mem
      split at mem
      · rw [List.mem_append, List.mem_append] at mem
        rcases mem with (here | vars_) | below
        · exact absurd here not_reference_of_dims
        · exact referenced_of_vars vars vars_
        · exact referenced_of_groups groups below
      · cases mem

theorem referenced_of_groups (gs : List D4Group) (mem : .reference decl dim ∈ D4Group.print_groups h gs) :
    Referenced h decl dim := by
  cases gs with
  | nil =>
      rw [D4Group.print_groups] at mem
      cases mem
  | cons g gs =>
      rw [D4Group.print_groups] at mem
      rcases List.mem_append.mp mem with first | rest
      · exact referenced_of_group g first
      · exact referenced_of_groups gs rest

end

end

/-- A group is in the response when it and every group around it is printed. -/
inductive Shown (h : Heap) : D4Group → D4Group → Prop where
  | here {g : D4Group} (printed : g.printed h) : Shown h g g
  | child {g c g' : D4Group} (printed : g.printed h) (mem : c ∈ g.groups) (below : Shown h c g') : Shown h g g'

theorem mem_print_groups {h : Heap} {gs : List D4Group} {g : D4Group} (mem : g ∈ gs) {x : Printed}
    (printed : x ∈ g.print_dap4 h) : x ∈ D4Group.print_groups h gs := by
  induction gs with
  | nil => cases mem
  | cons c gs ih =>
      rw [D4Group.print_groups, List.mem_append]
      rcases List.mem_cons.mp mem with rfl | mem
      · exact .inl printed
      · exact .inr (ih mem)

/-- A group that is shown declares the dimensions that are flagged. -/
theorem declared_of_shown {h : Heap} {root g : D4Group} (shown : Shown h root g) {dim : Nat} (mem : dim ∈ g.dims)
    (used : h.Used dim) : .declaration dim ∈ root.print_dap4 h := by
  induction shown with
  | @here g printed =>
      have flagged : h.used dim = true := by
        obtain ⟨s, at_, flag⟩ := used
        simp [Heap.used, Option.mem_def.mp at_, flag]
      cases g
      rw [D4Group.print_dap4, if_pos printed, List.mem_append, List.mem_append]
      exact .inl (.inl (List.mem_map_of_mem (List.mem_filter.mpr ⟨mem, flagged⟩)))
  | @child g c g' printed mem' _ ih =>
      cases g
      rw [D4Group.print_dap4, if_pos printed, List.mem_append]
      exact .inr (mem_print_groups mem' (ih mem))

open D4ConstraintEvaluator

/-- After an accepted constraint, the arrays that its clauses name and those that lie openly in
    what they name use flagged dimensions, except where they have a slice of their own, and
    every dimension that the response refers to for them is declared by its group there. -/
theorem marked_dims_declared (rvalue : Name → Except String Unit) {root : D4Group} {h h' : Heap} {expr : Expression}
    (ok : parse rvalue root h expr = .ok h') {c : Clause} (mem : c ∈ expr.clauses) {decl : Nat}
    (covers : Covers root none c decl) :
    (∀ d ∈ h'.shapeOf decl, ∀ dim ∈ d.dim, d.useSdimForSlice = false ∨ h'.Used dim) ∧
    (∀ dim, .reference decl (some dim) ∈ root.print_dap4 h' → h'.Used dim ∧
      ∀ g, Shown h' root g → dim ∈ g.dims → .declaration dim ∈ root.print_dap4 h') := by
  have closed := (parse_evaluates ok).closed ⟨c, mem, covers⟩
  constructor
  · intro d there dim points
    cases shares : d.useSdimForSlice with
    | false => exact .inl rfl
    | true => exact .inr (closed d there shares dim points)
  · intro dim printed
    obtain ⟨d, there, shares, points⟩ := referenced_of_group root printed
    have used := closed d there shares dim points
    exact ⟨used, fun g shown own => declared_of_shown shown own used⟩

section

/-- Any constant will do. -/
def anyConstant (_ : Name) : Except String Unit := pure ()

def arrayX : BaseType := .array 1 ['x'] 0 (.simple 2 ['x'])

theorem x_found : lookup besideDim none ['x'] = .ok arrayX := by
  have there : lookupVar besideDim.vars ['x'] = some arrayX := lookupVar_found rfl
  have found : besideDim.find_var ['x'] = .ok (lookupVar besideDim.vars ['x']) := rfl
  rw [lookup, var, found, there]
  rfl

/-- The constraint that names the array, with these indexes. -/
def nameX (indexes : List Subscript) : Expression := ⟨[], [.subset ['x'] indexes []]⟩

theorem parse_nameX {indexes : List Subscript} {is : List Index} (read : indexes.mapM make_index = .ok is) :
    parse anyConstant besideDim oneDim (nameX indexes) = mark_variable besideDim oneDim arrayX is := by
  have one : clause anyConstant besideDim none (.subset ['x'] indexes []) oneDim =
      mark_variable besideDim oneDim arrayX is := by
    rw [clause, read, x_found]
    simp only [arrayX, bind, Except.bind, filters, pure, Except.pure]
    cases mark_variable besideDim oneDim (.array 1 ['x'] 0 (.simple 2 ['x'])) is <;> rfl
  unfold parse nameX
  simp only [dimensions, clauses, one, bind_pure, pure_bind]

theorem wholeX_declared : ∃ h', parse anyConstant besideDim oneDim (nameX []) = .ok h' ∧
    ∀ d ∈ h'.shapeOf 0, ∀ dim ∈ d.dim, d.useSdimForSlice = false ∨ h'.Used dim := by
  have accepted : ∃ h', parse anyConstant besideDim oneDim (nameX []) = .ok h' := by
    rw [parse_nameX rfl]
    exact ⟨_, rfl⟩
  obtain ⟨h', ok⟩ := accepted
  have covers : Covers besideDim none (.subset ['x'] [] []) 0 :=
    .named x_found (by simp [arrayX, BaseType.namedArrays, BaseType.openArrays])
  exact ⟨h', ok, (marked_dims_declared anyConstant ok (List.mem_singleton.mpr rfl) covers).1⟩

/-- An array that is sent with a slice of its own leaves its shared dimension without a flag. -/
theorem local_slices_unflagged : ¬ ∀ (rvalue : Name → Except String Unit) (root : D4Group) (h h' : Heap)
    (expr : Expression), parse rvalue root h expr = .ok h' → ∀ p g q id name decl proto, GroupAt root p g →
      NodeAt g.vars q (.array id name decl proto) → id ∈ h'.sendP →
        ∀ d ∈ h'.shapeOf decl, ∀ dim ∈ d.dim, h'.Used dim := by
  intro claim
  have sliced : ∃ h', parse anyConstant besideDim oneDim (nameX [.range ['0'] ['1']]) = .ok h' ∧
      1 ∈ h'.sendP ∧ (∃ d ∈ h'.shapeOf 0, d.dim = some 0) ∧ h'.used 0 = false := by
    rw [parse_nameX rfl]
    exact ⟨_, rfl, by decide, ⟨_, List.mem_cons_self, rfl⟩, rfl⟩
  obtain ⟨h', ok, sent, ⟨d, mem, points⟩, unflagged⟩ := sliced
  have node : NodeAt besideDim.vars [.field ['x']] arrayX := .top (List.mem_singleton.mpr rfl)
  obtain ⟨s, at_, flag⟩ := claim _ _ _ _ _ ok _ _ _ _ _ _ _ (.here besideDim) node sent d mem 0 points
  have flagged : h'.used 0 = true := by simp [Heap.used, Option.mem_def.mp at_, flag]
  rw [unflagged] at flagged
  cases flagged

end

end Libdap.Dap4
