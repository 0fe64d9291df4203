import Libdap.Dap4.Filter
import Libdap.Dap4.Lookup

/-! # The selection of a constraint

A clause compares a variable with constants, on either side of the operator. The text of a
constant decides its type, as in a filter, and the class of the left operand compares. A
clause is true when one of its comparisons is, and the selection when all clauses are.
-/

namespace Libdap.Dap2

open Dap4 (IntType Operand Relop Cmp integerOf strtodInteger d4_ops www2id holds_iff_sameOrder minus_of_negative
  common_comm holds_swap cmp_swap exists_holds)

/-- `ID_MAX`, the size of the buffer of a word. -/
def idMax : Nat := 256

/-- `store_id` of the scanner. -/
def storeId (text : List Char) : List Char := text.take (idMax - 1)

def checkInt32 (val : List Char) : Option Int :=
  (integerOf val).bind fun v => if -2 ^ 31 ≤ v ∧ v < 2 ^ 31 then some v else none

def checkUInt32 (val : List Char) : Option Int :=
  if (val.dropWhile Dap4.Numeral.isspace).head? = some '-' then none
  else (integerOf val).bind fun v => if v < 2 ^ 32 then some v else none

/-- `value::build_instance`, and `make_variable` of it. -/
def buildInstance (token : List Char) : Operand :=
  match checkInt32 token with
  | some v => .integer .dods_int32_c v
  | none =>
    match checkUInt32 token with
    | some v => .integer .dods_uint32_c v
    | none =>
      match strtodInteger token with
      | some v => .float64 (doubleOf v)
      | none => .other token

/-- `ops` of the class of the first operand. -/
def ops (arg1 arg2 : Operand) (op : Relop) : Except String Bool :=
  match arg1 with
  | .integer .dods_uint16_c _ | .integer .dods_uint32_c _ =>
    match arg2 with
    | .other _ => pure false
    | _ => pure (Cmp op arg1 arg2)
  | _ => d4_ops arg1 arg2 op

/-- A clause of the selection, with the values of its variables. -/
structure Clause where
  op : Relop
  arg1 : Operand
  args : List Operand
  deriving Repr, DecidableEq

/-- The loop of `Clause::value`. -/
def valueOf (op : Relop) (arg1 : Operand) : List Operand → Except String Bool
  | [] => pure false
  | arg :: args => do if ← ops arg1 arg op then pure true else valueOf op arg1 args

def Clause.value (c : Clause) : Except String Bool := valueOf c.op c.arg1 c.args

/-- `ConstraintEvaluator::eval_selection` -/
def evalSelection : List Clause → Except String Bool
  | [] => pure true
  | c :: expr => do if ← c.value then evalSelection expr else pure false

/-- A clause as it is written: `word op word`, and `word op { word, ... }`. -/
structure ClauseText where
  first : List Char
  op : Relop
  others : List (List Char)
  deriving Repr, DecidableEq

section

-- `DDS::var`, for the variables that have an integer
variable (var : List Char → Option Operand)

/-- The rule `id_or_const` for a word. -/
def idOrConst (text : List Char) : Operand :=
  let word := storeId text
  (var (www2id word)).getD (buildInstance word)

def parseClause (c : ClauseText) : Clause :=
  ⟨c.op, idOrConst var c.first, c.others.map (idOrConst var)⟩

/-- `append_clause` for one clause after the other. -/
def parseSelection (clauses : List ClauseText) : List Clause := clauses.map (parseClause var)

end

/-- The types of an integer field. -/
def integerTypes : List IntType := [.dods_byte_c, .dods_int16_c, .dods_uint16_c, .dods_int32_c, .dods_uint32_c]

/-- A variable with an integer value. -/
structure IntField where
  name : List Char
  type : IntType
  value : Int
  type_mem : type ∈ integerTypes
  fits : type.ctype.Fits value

/-- A constant and the integer it is written for. -/
structure IntConstant where
  text : List Char
  value : Int
  written : integerOf text = some value
  fits : -2 ^ 31 ≤ value ∧ value < 2 ^ 32

/-- A clause that compares a field with constants, or a constant with a field. -/
inductive Comparison where
  | fieldFirst (field : IntField) (op : Relop) (constant : IntConstant) (constants : List IntConstant)
  | constantFirst (constant : IntConstant) (op : Relop) (field : IntField)

namespace Comparison

def text : Comparison → ClauseText
  | fieldFirst field op constant constants => ⟨field.name, op, (constant :: constants).map IntConstant.text⟩
  | constantFirst constant op field => ⟨constant.text, op, [field.name]⟩

/-- One of the constants stands to the field as the operator says. -/
def Holds : Comparison → Prop
  | fieldFirst field op constant constants => ∃ k ∈ constant :: constants, op.holds field.value k.value = true
  | constantFirst constant op field => op.holds constant.value field.value = true

instance (c : Comparison) : Decidable c.Holds := by
  cases c with
  | fieldFirst field op constant constants =>
      exact inferInstanceAs (Decidable (∃ k ∈ constant :: constants, op.holds field.value k.value = true))
  | constantFirst constant op field => exact inferInstanceAs (Decidable (op.holds constant.value field.value = true))

/-- What is compared in a clause is among these pairs. -/
def Over (pairs : Set (IntField × IntConstant)) : Comparison → Prop
  | fieldFirst field _ constant constants => ∀ k ∈ constant :: constants, (field, k) ∈ pairs
  | constantFirst constant _ field => (field, constant) ∈ pairs

end Comparison

/-! ## One comparison -/

/-- A field stands to what a constant is taken for, after the conversions of their types, as it stands
    to the integer the constant is written for. -/
def SameAfter (field : IntField) (v : Int) : Operand → Prop
  | .integer t w => SameOrder field.value v ((field.type.ctype.common t.ctype).convert field.value)
      ((field.type.ctype.common t.ctype).convert w)
  | .float64 d => SameOrder field.value v (doubleOf field.value) d
  | .other _ => False

/-- The constant of a clause stands to a field as it should. -/
def InOrder (field : IntField) (constant : IntConstant) : Prop :=
  SameAfter field constant.value (buildInstance (storeId constant.text))

/-- What a constant can be taken for. -/
inductive Built : Operand → Prop
  | int32 (v : Int) : Built (.integer .dods_int32_c v)
  | uint32 (v : Int) : Built (.integer .dods_uint32_c v)
  | float64 (v : Int) : Built (.float64 v)
  | other (text : List Char) : Built (.other text)

theorem built_buildInstance (token : List Char) : Built (buildInstance token) := by
  unfold buildInstance
  cases checkInt32 token with
  | some v => exact .int32 v
  | none =>
      cases checkUInt32 token with
      | some v => exact .uint32 v
      | none =>
          cases strtodInteger token with
          | some v => exact .float64 (doubleOf v)
          | none => exact .other token

theorem ops_integer (field : IntField) {o : Operand} (built : Built o) (number : ∀ text, o ≠ .other text) (op : Relop) :
    ops (.integer field.type field.value) o op = .ok (Cmp op (.integer field.type field.value) o) ∧
      ops o (.integer field.type field.value) op = .ok (Cmp op o (.integer field.type field.value)) := by
  obtain ⟨name, type, value, mem, fits⟩ := field
  simp only [integerTypes, List.mem_cons, List.not_mem_nil, or_false] at mem
  cases built with
  | int32 v | uint32 v | float64 v => obtain rfl | rfl | rfl | rfl | rfl := mem <;> exact ⟨rfl, rfl⟩
  | other text => exact absurd rfl (number text)

theorem ops_other (field : IntField) (text : List Char) (op : Relop) :
    ops (.integer field.type field.value) (.other text) op ≠ .ok true ∧
      ops (.other text) (.integer field.type field.value) op ≠ .ok true := by
  obtain ⟨name, type, value, mem, fits⟩ := field
  simp only [integerTypes, List.mem_cons, List.not_mem_nil, or_false] at mem
  refine ⟨?_, fun true_ => by cases true_⟩
  obtain rfl | rfl | rfl | rfl | rfl := mem <;> intro true_ <;> cases true_

theorem cmp_sameAfter_iff (field : IntField) (v : Int) {o : Operand} (number : ∀ text, o ≠ .other text) :
    (∀ op : Relop, Cmp op (.integer field.type field.value) o = op.holds field.value v) ↔ SameAfter field v o := by
  cases o with
  | integer t w => exact holds_iff_sameOrder
  | float64 d => exact holds_iff_sameOrder
  | other text => exact absurd rfl (number text)

/-- The operator of the class of a field gives what the integers stand to each other in, for all operators,
    exactly when the values are in order, -/
theorem fieldFirst_exact_iff (field : IntField) (v : Int) {o : Operand} (built : Built o) :
    (∀ op : Relop, ops (.integer field.type field.value) o op = .ok (op.holds field.value v)) ↔
      SameAfter field v o := by
  by_cases number : ∀ text, o ≠ .other text
  · rw [← cmp_sameAfter_iff field v number]
    refine forall_congr' fun op => ?_
    rw [(ops_integer field built number op).1, Except.ok.injEq]
  · simp only [not_forall, not_not] at number
    obtain ⟨text, rfl⟩ := number
    obtain ⟨op, holds⟩ := exists_holds field.value v
    exact iff_of_false (fun all => (ops_other field text op).1 (by rw [all op, holds])) id

/-- and so does that of the class of a constant. -/
theorem constantFirst_exact_iff (field : IntField) (v : Int) {o : Operand} (built : Built o) :
    (∀ op : Relop, ops o (.integer field.type field.value) op = .ok (op.holds v field.value)) ↔
      SameAfter field v o := by
  by_cases number : ∀ text, o ≠ .other text
  · rw [← cmp_sameAfter_iff field v number]
    constructor
    · intro all op
      have value := all op.swap
      rw [(ops_integer field built number op.swap).2, Except.ok.injEq, cmp_swap, holds_swap] at value
      exact value
    · intro all op
      rw [(ops_integer field built number op).2, Except.ok.injEq, ← cmp_swap, all, holds_swap]
  · simp only [not_forall, not_not] at number
    obtain ⟨text, rfl⟩ := number
    obtain ⟨op, holds⟩ := exists_holds v field.value
    exact iff_of_false (fun all => (ops_other field text op).2 (by rw [all op, holds])) id

theorem buildInstance_eq (constant : IntConstant) (whole : constant.text.length < idMax) :
    buildInstance (storeId constant.text) =
      if constant.value < 2 ^ 31 then .integer .dods_int32_c constant.value
      else .integer .dods_uint32_c constant.value := by
  obtain ⟨text, value, written, least, bound⟩ := constant
  have short : text.length ≤ idMax - 1 := Nat.le_sub_one_of_lt whole
  simp only [storeId, List.take_of_length_le short]
  unfold buildInstance checkInt32
  rw [written, Option.bind_some]
  by_cases small : value < 2 ^ 31
  · rw [if_pos ⟨least, small⟩, if_pos small]
  · have plain : (text.dropWhile Dap4.Numeral.isspace).head? ≠ some '-' := by
      intro minus
      have := (minus_of_negative written).1 minus
      omega
    rw [if_neg (fun both => small both.2), if_neg small]
    simp only [checkUInt32, if_neg plain, written, Option.bind_some, if_pos bound]

/-- When a constant that the scanner keeps whole is in order. -/
theorem inOrder_iff (field : IntField) (constant : IntConstant) (whole : constant.text.length < idMax) :
    InOrder field constant ↔
      if constant.value < 2 ^ 31 then
        field.type = .dods_uint32_c → 0 ≤ constant.value ∨ constant.value + 2 ^ 32 < field.value
      else 0 ≤ field.value ∨ field.value + 2 ^ 32 < constant.value := by
  have built := buildInstance_eq constant whole
  obtain ⟨text, value, written, least, bound⟩ := constant
  obtain ⟨name, type, x, mem, fits⟩ := field
  unfold InOrder
  rw [built]
  simp only [integerTypes, List.mem_cons, List.not_mem_nil, or_false] at mem
  split
  · rename_i small
    dsimp only at small
    obtain rfl | rfl | rfl | rfl | rfl := mem
    all_goals
      simp [CType.Fits, IntType.ctype, CType.least, CType.bound] at fits
      simp [SameAfter, SameOrder, IntType.ctype, CType.common, CType.promote, CType.usual, CType.convert]
      omega
  · rename_i large
    dsimp only at large
    obtain rfl | rfl | rfl | rfl | rfl := mem
    all_goals
      simp [CType.Fits, IntType.ctype, CType.least, CType.bound] at fits
      simp [SameAfter, SameOrder, IntType.ctype, CType.common, CType.promote, CType.usual, CType.convert]
      omega

/-! ## The clauses -/

/-- A dataset in which a field is found under its name, and nothing under what is written for a constant. -/
structure Fits (var : List Char → Option Operand) (field : IntField) (constant : IntConstant) : Prop where
  named : var (www2id (storeId field.name)) = some (.integer field.type field.value)
  unnamed : var (www2id (storeId constant.text)) = none

theorem idOrConst_field {var : List Char → Option Operand} {field : IntField} {constant : IntConstant}
    (fits : Fits var field constant) : idOrConst var field.name = .integer field.type field.value := by
  simp only [idOrConst, fits.named, Option.getD_some]

theorem idOrConst_constant {var : List Char → Option Operand} {field : IntField} {constant : IntConstant}
    (fits : Fits var field constant) : idOrConst var constant.text = buildInstance (storeId constant.text) := by
  simp only [idOrConst, fits.unnamed, Option.getD_none]

/-- A clause is true when one of its comparisons is. -/
theorem valueOf_eq {α : Type} {op : Relop} {arg1 : Operand} {P : α → Prop} [DecidablePred P] (f : α → Operand)
    (args : List α) (each : ∀ arg ∈ args, ops arg1 (f arg) op = .ok (decide (P arg))) :
    valueOf op arg1 (args.map f) = .ok (decide (∃ arg ∈ args, P arg)) := by
  induction args with
  | nil => rfl
  | cons arg args ih =>
      rw [List.forall_mem_cons] at each
      rw [List.map_cons, valueOf, each.1, ih each.2]
      by_cases holds : P arg
      · simp only [bind, Except.bind, holds, decide_true, List.exists_mem_cons_iff, true_or]
        rfl
      · simp only [bind, Except.bind, holds, decide_false, List.exists_mem_cons_iff, false_or]
        rfl

/-- The selection is true when all clauses are. -/
theorem evalSelection_eq {α : Type} {P : α → Prop} [DecidablePred P] (f : α → Clause) (expr : List α)
    (each : ∀ c ∈ expr, (f c).value = .ok (decide (P c))) :
    evalSelection (expr.map f) = .ok (decide (∀ c ∈ expr, P c)) := by
  induction expr with
  | nil => rfl
  | cons c expr ih =>
      rw [List.forall_mem_cons] at each
      rw [List.map_cons, evalSelection, each.1, ih each.2]
      by_cases holds : P c
      · simp only [bind, Except.bind, holds, decide_true, List.forall_mem_cons, true_and]
        rfl
      · simp only [bind, Except.bind, holds, decide_false, List.forall_mem_cons, false_and]
        rfl

theorem value_eq {var : List Char → Option Operand} {pairs : Set (IntField × IntConstant)}
    (fits : ∀ p ∈ pairs, Fits var p.1 p.2) (inOrder : ∀ p ∈ pairs, InOrder p.1 p.2) {c : Comparison}
    (among : c.Over pairs) : (parseClause var c.text).value = .ok (decide c.Holds) := by
  cases c with
  | fieldFirst field op constant constants =>
      have named := idOrConst_field (fits _ (among constant List.mem_cons_self))
      simp only [Clause.value, parseClause, Comparison.text, named, List.map_map]
      have each : ∀ k ∈ constant :: constants, ops (.integer field.type field.value)
          ((idOrConst var ∘ IntConstant.text) k) op = .ok (decide (op.holds field.value k.value = true)) := by
        intro k mem
        rw [Function.comp_apply, idOrConst_constant (fits _ (among k mem)), Bool.decide_eq_true]
        exact (fieldFirst_exact_iff field k.value (built_buildInstance _)).mpr (inOrder (field, k) (among k mem)) op
      exact (valueOf_eq _ _ each).trans (congrArg Except.ok (decide_eq_decide.mpr Iff.rfl))
  | constantFirst constant op field =>
      have fit := fits _ among
      have ordered : SameAfter field constant.value (buildInstance (storeId constant.text)) :=
        inOrder (field, constant) among
      have one := (constantFirst_exact_iff field constant.value (built_buildInstance _)).mpr ordered op
      simp only [Clause.value, parseClause, Comparison.text, List.map_cons, List.map_nil, idOrConst_field fit,
        idOrConst_constant fit, valueOf]
      rw [one]
      by_cases holds : op.holds constant.value field.value = true
      · simp [holds, Comparison.Holds]
        rfl
      · simp [holds, Comparison.Holds]
        rfl

/-- The selections that compare these fields with these constants are all right exactly when each constant
    stands to each field it is compared with, after the conversions, as it is written. -/
theorem selections_exact_iff (var : List Char → Option Operand) (pairs : Set (IntField × IntConstant))
    (fits : ∀ p ∈ pairs, Fits var p.1 p.2) :
    (∀ sel : List Comparison, (∀ c ∈ sel, c.Over pairs) →
      evalSelection (parseSelection var (sel.map Comparison.text)) = .ok (decide (∀ c ∈ sel, c.Holds))) ↔
    ∀ p ∈ pairs, InOrder p.1 p.2 := by
  constructor
  · rintro all ⟨field, constant⟩ mem
    refine (fieldFirst_exact_iff field constant.value (built_buildInstance _)).mp fun op => ?_
    have one := all [.fieldFirst field op constant []] (by simpa [Comparison.Over] using mem)
    have fit := fits _ mem
    simp only [parseSelection, parseClause, Comparison.text, List.map_cons, List.map_nil, evalSelection, Clause.value,
      valueOf, idOrConst_field fit, idOrConst_constant fit, List.mem_singleton, forall_eq, Comparison.Holds,
      exists_eq_left, Bool.decide_eq_true] at one
    cases result : ops (.integer field.type field.value) (buildInstance (storeId constant.text)) op with
    | error e =>
        rw [result] at one
        cases one
    | ok b =>
        rw [result] at one
        cases b <;> exact one
  · intro inOrder sel among
    rw [parseSelection, List.map_map]
    exact evalSelection_eq _ sel fun c mem => value_eq fits inOrder (among c mem)

section

/-- An `Int16` field. -/
def depth (value : Int) (fits : IntType.dods_int16_c.ctype.Fits value) : IntField :=
  ⟨"depth".toList, .dods_int16_c, value, by decide, fits⟩

def seven : IntConstant := ⟨"7".toList, 7, by decide, by decide⟩

def threeBillion : IntConstant := ⟨"3000000000".toList, 3000000000, by decide, by decide⟩

/-- A dataset with this variable alone. -/
def alone (field : IntField) (name : List Char) : Option Operand :=
  if name = field.name then some (.integer field.type field.value) else none

theorem depth_fits {value : Int} {fits : IntType.dods_int16_c.ctype.Fits value} {constant : IntConstant}
    (other : www2id (storeId constant.text) ≠ (depth value fits).name) :
    Fits (alone (depth value fits)) (depth value fits) constant where
  named := by
    have plain : www2id (storeId "depth".toList) = "depth".toList := by decide
    exact if_pos plain
  unnamed := if_neg other

/-- Seven is compared with a depth of minus five as it should be. -/
theorem seven_exact : evalSelection (parseSelection (alone (depth (-5) (by decide)))
    ([Comparison.fieldFirst (depth (-5) (by decide)) .less seven []].map Comparison.text)) = .ok true := by
  have fits : ∀ p ∈ ({(depth (-5) (by decide), seven)} : Set (IntField × IntConstant)),
      Fits (alone (depth (-5) (by decide))) p.1 p.2 := by
    rintro p rfl
    exact depth_fits (by decide)
  have inOrder : ∀ p ∈ ({(depth (-5) (by decide), seven)} : Set (IntField × IntConstant)), InOrder p.1 p.2 := by
    rintro p rfl
    have built : buildInstance (storeId seven.text) = .integer .dods_int32_c 7 := by decide
    unfold InOrder
    rw [built]
    exact ⟨by decide, by decide⟩
  have all := (selections_exact_iff _ _ fits).mpr inOrder [.fieldFirst (depth (-5) (by decide)) .less seven []]
  have covered : ∀ c ∈ [Comparison.fieldFirst (depth (-5) (by decide)) .less seven []],
      c.Over {(depth (-5) (by decide), seven)} := by
    intro c mem
    rw [List.mem_singleton] at mem
    rw [mem]
    intro k mem'
    rw [List.mem_singleton] at mem'
    rw [mem']
    rfl
  rw [all covered]
  decide

/-- Minus five is not found to be less than three billion, which is an `UInt32`. -/
theorem threeBillion_wrong : ¬∀ (var : List Char → Option Operand) (sel : List Comparison),
    (∀ c ∈ sel, c.Over {p | Fits var p.1 p.2}) →
      evalSelection (parseSelection var (sel.map Comparison.text)) = .ok (decide (∀ c ∈ sel, c.Holds)) := by
  intro all
  have one := all (alone (depth (-5) (by decide))) [.fieldFirst (depth (-5) (by decide)) .less threeBillion []]
    (by
      intro c mem
      rw [List.mem_singleton] at mem
      rw [mem]
      intro k mem'
      rw [List.mem_singleton] at mem'
      rw [mem']
      exact depth_fits (by decide))
  revert one
  decide

end

end Libdap.Dap2
