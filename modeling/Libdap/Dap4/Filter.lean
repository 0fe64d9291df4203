import Libdap.Dap4.Index
import Libdap.Foundation.CInt

/-! # Filter clauses

A clause compares a field of a Sequence with a constant. The text of the constant
decides its type, the class of the left operand decides whether there is an
operator, and the two types decide in which type the values are compared.
-/

namespace Libdap.Dap4

/-- The types of an integer field. `Byte` is the class of the first three. -/
inductive IntType where
  | dods_byte_c
  | dods_char_c
  | dods_uint8_c
  | dods_int8_c
  | dods_int16_c
  | dods_uint16_c
  | dods_int32_c
  | dods_uint32_c
  | dods_int64_c
  | dods_uint64_c
  deriving Repr, DecidableEq

def IntType.ctype : IntType → CType
  | dods_byte_c | dods_char_c | dods_uint8_c => ⟨8, false⟩
  | dods_int8_c => ⟨8, true⟩
  | dods_int16_c => ⟨16, true⟩
  | dods_uint16_c => ⟨16, false⟩
  | dods_int32_c => ⟨32, true⟩
  | dods_uint32_c => ⟨32, false⟩
  | dods_int64_c => ⟨64, true⟩
  | dods_uint64_c => ⟨64, false⟩

/-- `D4FilterClause::ops`, of the operators that a comparison of numbers can have. -/
inductive Relop where
  | less
  | greater
  | less_equal
  | greater_equal
  | equal
  | not_equal
  deriving Repr, DecidableEq

/-- The six branches of `Cmp` that compare. -/
def Relop.holds : Relop → Int → Int → Bool
  | less, a, b => a < b
  | greater, a, b => a > b
  | less_equal, a, b => a ≤ b
  | greater_equal, a, b => a ≥ b
  | equal, a, b => a = b
  | not_equal, a, b => a ≠ b

/-- What a clause compares: an integer of some type, a `Float64` with an integer for its value, or
    what is no integer. -/
inductive Operand where
  | integer (type : IntType) (value : Int)
  | float64 (value : Int)
  | other (text : List Char)
  deriving Repr, DecidableEq

/-- `Cmp` of two integers, which are converted to one type, or of two doubles. -/
def Cmp (op : Relop) : Operand → Operand → Bool
  | .integer t v, .integer t' v' =>
    op.holds ((t.ctype.common t'.ctype).convert v) ((t.ctype.common t'.ctype).convert v')
  | .float64 v, .integer _ v' => op.holds v (doubleOf v')
  | .integer _ v, .float64 v' => op.holds (doubleOf v) v'
  | .float64 v, .float64 v' => op.holds v v'
  | _, _ => false

/-- The types that the `switch` of a `d4_ops` knows. -/
def Operand.known : Operand → Bool
  | .integer .dods_char_c _ | .integer .dods_uint8_c _ => false
  | _ => true

/-- The `d4_ops` of the class of the first operand. -/
def d4_ops (arg1 arg2 : Operand) (op : Relop) : Except String Bool :=
  match arg1 with
  -- these have `ops` alone, and what they inherit throws
  | .integer .dods_uint16_c _ | .integer .dods_uint32_c _ => throw "Unimplemented operator."
  | .integer .dods_uint64_c _ => pure (arg2.known && Cmp op arg1 arg2)
  | .other _ => throw "Relational operators can only compare compatible types (number, string)."
  | .integer _ _ | .float64 _ =>
    match arg2 with
    | .other _ => throw "Relational operators can only compare compatible types (number, string)."
    | _ => if arg2.known then pure (Cmp op arg1 arg2)
      else throw "Relational operators only work with scalar types."

/-- The integer that a text is read as, with the base that it asks for. -/
def integerOf (val : List Char) : Option Int :=
  (Numeral.read val).bind fun n =>
    if n.rest = [] then some (if n.negative then -n.magnitude else n.magnitude) else none

/-- The integer that `strtod` reads: hexadecimal digits as such, all others as decimal ones. -/
def strtodInteger (val : List Char) : Option Int :=
  let (negative, cs) := Numeral.sign (val.dropWhile Numeral.isspace)
  let (base, cs) := match Numeral.base cs with
    | (16, cs) => (16, cs)
    | _ => (10, cs)
  match Numeral.digits base cs with
  | ([], _) => none
  | (ds, rest) =>
    let magnitude : Int := (ds.foldl (fun n d => base * n + d) 0 : Nat)
    if rest = [] then some (if negative then -magnitude else magnitude) else none

/-- What was read is returned as an `int`. -/
def check_uint64 (val : List Char) : Bool :=
  if (val.dropWhile Numeral.isspace).head? = some '-' then false
  else
    match integerOf val with
    | none => false
    | some v => decide (v < 2 ^ 64 ∧ v % 2 ^ 32 ≠ 0)

def check_int64 (val : List Char) : Bool :=
  match integerOf val with
  | none => false
  | some v => decide (-2 ^ 63 ≤ v ∧ v < 2 ^ 63)

/-- The constant of a clause. -/
def D4RValueFactory (cpps : List Char) : Operand :=
  if check_uint64 cpps then .integer .dods_uint64_c ((integerOf cpps).getD 0)
  else if check_int64 cpps then .integer .dods_int64_c ((integerOf cpps).getD 0)
  else
    match strtodInteger cpps with
    | some v => .float64 (doubleOf v)
    | none => .other cpps

/-- `D4FilterClause::value` of a field and a constant, or of a constant and a field. -/
inductive FilterClause where
  | fieldFirst (op : Relop) (type : IntType) (value : Int) (constant : List Char)
  | constantFirst (op : Relop) (constant : List Char) (type : IntType) (value : Int)
  deriving Repr, DecidableEq

def FilterClause.value : FilterClause → Except String Bool
  | fieldFirst op type value constant => d4_ops (.integer type value) (D4RValueFactory constant) op
  | constantFirst op constant type value => d4_ops (D4RValueFactory constant) (.integer type value) op

/-- All six operators give what they give for another pair exactly when the two pairs stand in one order. -/
theorem holds_iff_sameOrder {a b a' b' : Int} : (∀ op : Relop, op.holds a' b' = op.holds a b) ↔ SameOrder a b a' b' := by
  constructor
  · intro all
    exact ⟨by simpa only [Relop.holds, decide_eq_decide] using all .less,
      by simpa only [Relop.holds, decide_eq_decide] using all .equal⟩
  · rintro ⟨lt, eq⟩ op
    cases op with
    | less | greater | less_equal | greater_equal | equal | not_equal =>
        simp only [Relop.holds, decide_eq_decide]
        omega

/-- The text of a constant is that of an integer that 64 bits can hold, with a sign or without. -/
def Written (constant : List Char) (v : Int) : Prop := integerOf constant = some v ∧ -2 ^ 63 ≤ v ∧ v < 2 ^ 64

instance (constant : List Char) (v : Int) : Decidable (Written constant v) := inferInstanceAs (Decidable (_ ∧ _))

theorem sign_of_ne {ch : Char} {rest : List Char} (ne : ch ≠ '-') : (Numeral.sign (ch :: rest)).1 = false := by
  unfold Numeral.sign
  split
  · rename_i minus
    exact absurd (List.cons.inj minus).1 ne
  · rfl
  · rfl

/-- A negative integer has its sign in front, and only a zero may have one as well. -/
theorem minus_of_negative {val : List Char} {v : Int} (read : integerOf val = some v) :
    ((val.dropWhile Numeral.isspace).head? = some '-' → v ≤ 0) ∧
      (v < 0 → (val.dropWhile Numeral.isspace).head? = some '-') := by
  unfold integerOf at read
  obtain ⟨n, numeral, value⟩ := Option.bind_eq_some_iff.mp read
  have signed : n.negative = (Numeral.sign (val.dropWhile Numeral.isspace)).1 := by
    unfold Numeral.read at numeral
    simp only at numeral
    split at numeral
    · cases numeral
    · rw [← Option.some.inj numeral]
  split at value
  · have value := Option.some.inj value
    cases text : val.dropWhile Numeral.isspace with
    | nil =>
        rw [text] at signed
        have positive : n.negative = false := signed
        rw [positive] at value
        refine ⟨fun none => (by cases none), fun negative => ?_⟩
        simp at value
        omega
    | cons ch rest =>
        rw [text] at signed
        by_cases minus : ch = '-'
        · refine ⟨fun _ => ?_, fun _ => by rw [minus]; rfl⟩
          rw [minus] at signed
          have negative : n.negative = true := signed
          rw [negative] at value
          simp at value
          omega
        · rw [sign_of_ne minus] at signed
          rw [signed] at value
          refine ⟨fun head => absurd (Option.some.inj head) minus, fun negative => ?_⟩
          simp at value
          omega
  · cases value

theorem check_uint64_eq {constant : List Char} {v : Int} (written : Written constant v) :
    check_uint64 constant = decide (0 < v ∧ v % 2 ^ 32 ≠ 0) := by
  obtain ⟨read, least, bound⟩ := written
  obtain ⟨nonpos, negative⟩ := minus_of_negative read
  unfold check_uint64
  rw [read]
  split
  · rename_i minus
    have le := nonpos minus
    rw [eq_comm, decide_eq_false_iff_not]
    omega
  · rename_i plain
    have nonneg : 0 ≤ v := not_lt.mp fun lt => plain (negative lt)
    rw [decide_eq_decide]
    omega

theorem check_int64_eq {constant : List Char} {v : Int} (written : Written constant v) :
    check_int64 constant = decide (v < 2 ^ 63) := by
  obtain ⟨read, least, bound⟩ := written
  unfold check_int64
  rw [read, decide_eq_decide]
  omega

theorem factory_eq {constant : List Char} {v : Int} (written : Written constant v) :
    (0 < v ∧ v % 2 ^ 32 ≠ 0 ∧ D4RValueFactory constant = .integer .dods_uint64_c v) ∨
    (v < 2 ^ 63 ∧ D4RValueFactory constant = .integer .dods_int64_c v) ∨
    (2 ^ 63 ≤ v ∧ ∃ d, D4RValueFactory constant = .float64 d) ∨
    D4RValueFactory constant = .other constant := by
  have value : (integerOf constant).getD 0 = v := by rw [written.1]; rfl
  unfold D4RValueFactory
  rw [check_uint64_eq written, check_int64_eq written, value]
  by_cases unsigned : 0 < v ∧ v % 2 ^ 32 ≠ 0
  · exact .inl ⟨unsigned.1, unsigned.2, if_pos (decide_eq_true unsigned)⟩
  · rw [if_neg (by rw [decide_eq_true_eq]; exact unsigned)]
    by_cases small : v < 2 ^ 63
    · exact .inr (.inl ⟨small, if_pos (decide_eq_true small)⟩)
    · rw [if_neg (by rw [decide_eq_true_eq]; exact small)]
      cases strtodInteger constant with
      | none => exact .inr (.inr (.inr rfl))
      | some d => exact .inr (.inr (.inl ⟨not_lt.mp small, doubleOf d, rfl⟩))

/-- When a value of a field stands to a constant, after the conversions of its type, as the two integers do. -/
def SameAfter (t : IntType) (x : Int) (constant : Operand) (v : Int) : Prop :=
  match constant with
  | .integer .dods_uint64_c _ => 0 ≤ x ∨ x + 2 ^ 64 < v
  | .integer _ _ => t = .dods_uint64_c → 0 ≤ v ∨ v + 2 ^ 64 < x
  | .float64 d => SameOrder x v (doubleOf x) d
  | .other _ => False

theorem sameOrder_unsigned_iff {t : IntType} {x v : Int} (fits : t.ctype.Fits x) (positive : 0 < v) (bound : v < 2 ^ 64) :
    SameOrder x v ((t.ctype.common IntType.dods_uint64_c.ctype).convert x)
      ((t.ctype.common IntType.dods_uint64_c.ctype).convert v) ↔ 0 ≤ x ∨ x + 2 ^ 64 < v := by
  have common : t.ctype.common IntType.dods_uint64_c.ctype = ⟨64, false⟩ := by cases t <;> rfl
  have range : -2 ^ 63 ≤ x ∧ x < 2 ^ 64 := by
    unfold CType.Fits at fits
    cases t <;> simp [IntType.ctype, CType.least, CType.bound] at fits <;> omega
  rw [common]
  simp only [CType.convert, Bool.false_eq_true, ↓reduceIte, SameOrder]
  omega

theorem sameOrder_signed_iff {t : IntType} {x v : Int} (fits : t.ctype.Fits x) (least : -2 ^ 63 ≤ v)
    (bound : v < 2 ^ 63) :
    SameOrder x v ((t.ctype.common IntType.dods_int64_c.ctype).convert x)
      ((t.ctype.common IntType.dods_int64_c.ctype).convert v) ↔
      (t = .dods_uint64_c → 0 ≤ v ∨ v + 2 ^ 64 < x) := by
  by_cases unsigned : t = .dods_uint64_c
  · subst unsigned
    have common : IntType.dods_uint64_c.ctype.common IntType.dods_int64_c.ctype = ⟨64, false⟩ := rfl
    have range : 0 ≤ x ∧ x < 2 ^ 64 := by
      simpa [CType.Fits, IntType.ctype, CType.least, CType.bound] using fits
    rw [common]
    simp only [CType.convert, Bool.false_eq_true, ↓reduceIte, SameOrder, forall_const]
    omega
  · have common : t.ctype.common IntType.dods_int64_c.ctype = ⟨64, true⟩ := by
      cases t <;> first | rfl | exact absurd rfl unsigned
    have range : -2 ^ 63 ≤ x ∧ x < 2 ^ 63 := by
      unfold CType.Fits at fits
      cases t <;> first | exact absurd rfl unsigned | (simp [IntType.ctype, CType.least, CType.bound] at fits; omega)
    rw [common]
    refine iff_of_true ?_ fun eq => absurd eq unsigned
    simp only [CType.convert, ↓reduceIte, SameOrder]
    omega

theorem common_comm (t t' : IntType) : t.ctype.common t'.ctype = t'.ctype.common t.ctype := by
  cases t <;> cases t' <;> rfl

/-- The comparison of a field with a constant, and of the constant with the field, are those of the integers
    exactly when the values stand in one order after the conversions. -/
theorem cmp_exact_iff {t : IntType} {x v : Int} {constant : List Char} (fits : t.ctype.Fits x)
    (written : Written constant v) :
    (∀ op : Relop, Cmp op (.integer t x) (D4RValueFactory constant) = op.holds x v) ↔
      SameAfter t x (D4RValueFactory constant) v := by
  obtain ⟨-, least, bound⟩ := id written
  obtain ⟨positive, -, unsigned⟩ | ⟨small, signed⟩ | ⟨-, d, float⟩ | other := factory_eq written
  · rw [unsigned]
    exact holds_iff_sameOrder.trans (sameOrder_unsigned_iff fits positive bound)
  · rw [signed]
    exact holds_iff_sameOrder.trans (sameOrder_signed_iff fits least small)
  · rw [float]
    exact holds_iff_sameOrder
  · rw [other]
    refine iff_of_false (fun all => ?_) id
    have lt := all .less
    have ge := all .greater_equal
    simp only [Cmp, Relop.holds, ge_iff_le, eq_comm (a := false), decide_eq_false_iff_not] at lt ge
    omega

/-- The operator of the comparison written the other way round. -/
def Relop.swap : Relop → Relop
  | less => greater
  | greater => less
  | less_equal => greater_equal
  | greater_equal => less_equal
  | equal => equal
  | not_equal => not_equal

theorem Relop.swap_swap (op : Relop) : op.swap.swap = op := by
  cases op <;> rfl

theorem holds_swap (op : Relop) (a b : Int) : op.swap.holds b a = op.holds a b := by
  cases op with
  | less | greater | less_equal | greater_equal => rfl
  | equal => simp only [Relop.swap, Relop.holds, eq_comm]
  | not_equal => simp only [Relop.swap, Relop.holds, ne_eq, eq_comm]

theorem cmp_swap (op : Relop) (a b : Operand) : Cmp op.swap b a = Cmp op a b := by
  cases a with
  | integer t v =>
      cases b with
      | integer t' v' =>
          simp only [Cmp, common_comm t' t]
          exact holds_swap op _ _
      | float64 v' => exact holds_swap op _ _
      | other text => rfl
  | float64 v =>
      cases b with
      | integer t' v' => exact holds_swap op _ _
      | float64 v' => exact holds_swap op _ _
      | other text => rfl
  | other text => cases b <;> rfl

theorem cmp_exact_swap_iff {t : IntType} {x v : Int} {constant : List Char} (fits : t.ctype.Fits x)
    (written : Written constant v) :
    (∀ op : Relop, Cmp op (D4RValueFactory constant) (.integer t x) = op.holds v x) ↔
      SameAfter t x (D4RValueFactory constant) v := by
  rw [← cmp_exact_iff fits written]
  constructor
  · intro all op
    rw [← cmp_swap, ← holds_swap, all]
  · intro all op
    rw [← cmp_swap, ← holds_swap, all]

/-- The operator of the class of a field: a comparison, an exception where there is no operator, and where
    the constant is no number an exception or nothing but `false`. -/
theorem fieldFirst_value (op : Relop) (t : IntType) (x : Int) (constant : List Char) :
    (FilterClause.fieldFirst op t x constant).value =
      if t = .dods_uint16_c ∨ t = .dods_uint32_c then .error "Unimplemented operator."
      else
        match D4RValueFactory constant with
        | .other text =>
          if t = .dods_uint64_c then .ok (Cmp op (.integer t x) (.other text))
          else .error "Relational operators can only compare compatible types (number, string)."
        | .integer t' v =>
          if t = .dods_uint64_c then .ok ((Operand.integer t' v).known && Cmp op (.integer t x) (.integer t' v))
          else if (Operand.integer t' v).known then .ok (Cmp op (.integer t x) (.integer t' v))
          else .error "Relational operators only work with scalar types."
        | .float64 d => .ok (Cmp op (.integer t x) (.float64 d)) := by
  simp only [FilterClause.value]
  cases D4RValueFactory constant with
  | integer t' v => cases t <;> rfl
  | float64 d => cases t <;> rfl
  | other text => cases t <;> rfl

/-- A constant in front of a `Char` or a `UInt8` never finds its operator. -/
theorem constantFirst_unknown (op : Relop) {t : IntType} (x : Int) {constant : List Char} {v : Int}
    (written : Written constant v) (unknown : t = .dods_char_c ∨ t = .dods_uint8_c) :
    (FilterClause.constantFirst op constant t x).value ≠ .ok true := by
  simp only [FilterClause.value]
  obtain ⟨-, -, eq⟩ | ⟨-, eq⟩ | ⟨-, d, eq⟩ | eq := factory_eq written
  all_goals
    rw [eq]
    obtain rfl | rfl := unknown
    all_goals
      intro true_
      cases true_

theorem constantFirst_known (op : Relop) {t : IntType} (x : Int) {constant : List Char} {v : Int}
    (written : Written constant v) (known : ¬(t = .dods_char_c ∨ t = .dods_uint8_c))
    (number : D4RValueFactory constant ≠ .other constant) :
    (FilterClause.constantFirst op constant t x).value = .ok (Cmp op (D4RValueFactory constant) (.integer t x)) := by
  simp only [FilterClause.value]
  obtain ⟨-, -, eq⟩ | ⟨-, eq⟩ | ⟨-, d, eq⟩ | eq := factory_eq written
  · rw [eq]
    cases t <;> first | rfl | exact absurd (by simp) known
  · rw [eq]
    cases t <;> first | rfl | exact absurd (by simp) known
  · rw [eq]
    cases t <;> first | rfl | exact absurd (by simp) known
  · exact absurd eq number

theorem fieldFirst_known (op : Relop) {t : IntType} (x : Int) {constant : List Char} {v : Int}
    (written : Written constant v) (known : ¬(t = .dods_uint16_c ∨ t = .dods_uint32_c))
    (number : D4RValueFactory constant ≠ .other constant) :
    (FilterClause.fieldFirst op t x constant).value = .ok (Cmp op (.integer t x) (D4RValueFactory constant)) := by
  simp only [FilterClause.value]
  obtain ⟨-, -, eq⟩ | ⟨-, eq⟩ | ⟨-, d, eq⟩ | eq := factory_eq written
  · rw [eq]
    cases t <;> first | rfl | exact absurd (by simp) known
  · rw [eq]
    cases t <;> first | rfl | exact absurd (by simp) known
  · rw [eq]
    cases t <;> first | rfl | exact absurd (by simp) known
  · exact absurd eq number

/-- Some operator holds of two integers. -/
theorem exists_holds (a b : Int) : ∃ op : Relop, op.holds a b = true := by
  by_cases lt : a < b
  · exact ⟨.less, decide_eq_true lt⟩
  · exact ⟨.greater_equal, decide_eq_true (not_lt.mp lt)⟩

theorem other_fails (op : Relop) {t : IntType} (x : Int) {constant : List Char}
    (other : D4RValueFactory constant = .other constant) :
    (FilterClause.fieldFirst op t x constant).value ≠ .ok true ∧
      (FilterClause.constantFirst op constant t x).value ≠ .ok true := by
  simp only [FilterClause.value, other]
  cases t with
  | dods_byte_c | dods_char_c | dods_uint8_c | dods_int8_c | dods_int16_c | dods_uint16_c | dods_int32_c
  | dods_uint32_c | dods_int64_c | dods_uint64_c =>
      exact ⟨fun true_ => (by cases true_), fun true_ => (by cases true_)⟩

/-- All comparisons of a field with a constant are those of the two integers exactly when the class of the field
    has an operator and the values stand in one order after the conversions, and all comparisons of the constant
    with the field exactly when the field's type is one that the constant's operator knows, and they do. -/
theorem clauses_exact_iff {t : IntType} {x v : Int} {constant : List Char} (fits : t.ctype.Fits x)
    (written : Written constant v) :
    ((∀ op : Relop, (FilterClause.fieldFirst op t x constant).value = .ok (op.holds x v)) ↔
      ¬(t = .dods_uint16_c ∨ t = .dods_uint32_c) ∧ SameAfter t x (D4RValueFactory constant) v) ∧
    ((∀ op : Relop, (FilterClause.constantFirst op constant t x).value = .ok (op.holds v x)) ↔
      ¬(t = .dods_char_c ∨ t = .dods_uint8_c) ∧ SameAfter t x (D4RValueFactory constant) v) := by
  obtain ⟨op, holds⟩ := exists_holds x v
  obtain ⟨op', holds'⟩ := exists_holds v x
  by_cases number : D4RValueFactory constant = .other constant
  · have never : ¬SameAfter t x (D4RValueFactory constant) v := by
      rw [number]
      exact id
    have fails := (other_fails op (t := t) x number).1
    have fails' := (other_fails op' (t := t) x number).2
    exact ⟨iff_of_false (fun all => fails (by rw [all op, holds])) fun right => never right.2,
      iff_of_false (fun all => fails' (by rw [all op', holds'])) fun right => never right.2⟩
  constructor
  · by_cases unknown : t = .dods_uint16_c ∨ t = .dods_uint32_c
    · refine iff_of_false (fun all => ?_) fun right => right.1 unknown
      have value := all op
      simp only [FilterClause.value] at value
      obtain rfl | rfl := unknown
      · cases value
      · cases value
    · rw [← cmp_exact_iff fits written, and_iff_right unknown]
      refine forall_congr' fun op => ?_
      rw [fieldFirst_known op x written unknown number, Except.ok.injEq]
  · by_cases unknown : t = .dods_char_c ∨ t = .dods_uint8_c
    · exact iff_of_false (fun all => constantFirst_unknown op' x written unknown (by rw [all op', holds']))
        fun right => right.1 unknown
    · rw [← cmp_exact_swap_iff fits written, and_iff_right unknown]
      refine forall_congr' fun op => ?_
      rw [constantFirst_known op x written unknown number, Except.ok.injEq]

/-- Minus seven is less than twelve for an `Int32` field too, with the constant on either side. -/
theorem minusSeven_exact : (∀ op : Relop, (FilterClause.fieldFirst op .dods_int32_c 12 "-7".toList).value =
      .ok (op.holds 12 (-7))) ∧
    ∀ op : Relop, (FilterClause.constantFirst op "-7".toList .dods_int32_c 12).value = .ok (op.holds (-7) 12) := by
  have written : Written "-7".toList (-7) := by decide
  have same : SameAfter .dods_int32_c 12 (D4RValueFactory "-7".toList) (-7) := fun eq => by cases eq
  have fits : IntType.dods_int32_c.ctype.Fits 12 := by decide
  obtain ⟨fieldFirst, constantFirst⟩ := clauses_exact_iff fits written
  exact ⟨fieldFirst.mpr ⟨by decide, same⟩, constantFirst.mpr ⟨by decide, same⟩⟩

/-- Minus one is not found to be less than five, since five is an `UInt64`. -/
theorem minusOne_not_less : ¬∀ (op : Relop) (t : IntType) (x v : Int) (constant : List Char), t.ctype.Fits x →
    Written constant v → (FilterClause.fieldFirst op t x constant).value = .ok (op.holds x v) := by
  intro all
  have value := all .less .dods_int8_c (-1) 5 "5".toList (by decide) (by decide)
  revert value
  decide

/-- A field that is at most 32 bits wide is compared with a `Float64` as with the integer it was read from. -/
theorem narrow_float64 {t : IntType} {x : Int} (fits : t.ctype.Fits x) (narrow : t.ctype.bits ≤ 32) : doubleOf x = x := by
  refine doubleOf_of_small ?_
  unfold CType.Fits at fits
  cases t <;> simp [IntType.ctype, CType.least, CType.bound] at fits narrow <;> omega

end Libdap.Dap4
