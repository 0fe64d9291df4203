import Libdap.Foundation.Ints
import Mathlib.Data.List.Basic

/-! # The size of a request

A group adds the bytes of its own variables to what its child groups say of themselves, and that they
say in kilobytes.
-/

namespace Libdap.Dap4.Request

open Ints

/-- The types without elements of their own. An enumeration has the size of its element type. -/
inductive ScalarType where
  | dods_byte_c
  | dods_char_c
  | dods_int8_c
  | dods_uint8_c
  | dods_int16_c
  | dods_uint16_c
  | dods_int32_c
  | dods_uint32_c
  | dods_int64_c
  | dods_uint64_c
  | dods_float32_c
  | dods_float64_c
  | dods_str_c
  | dods_url_c
  | dods_opaque_c
  deriving Repr, DecidableEq

/-- `width` of a scalar. Strings and opaques have the sizes of a `std::string` and of a `std::vector`. -/
def ScalarType.width : ScalarType → Nat
  | dods_byte_c | dods_char_c | dods_int8_c | dods_uint8_c => 1
  | dods_int16_c | dods_uint16_c => 2
  | dods_int32_c | dods_uint32_c | dods_float32_c => 4
  | dods_int64_c | dods_uint64_c | dods_float64_c => 8
  | dods_str_c | dods_url_c => 32
  | dods_opaque_c => 24

/-- A variable: its `send_p`, and what its width depends on. The length of an array is the one that it has
with the constraint, once that is set. -/
inductive BaseType where
  | scalar (send_p : Bool) (type : ScalarType)
  | array (send_p : Bool) (length : Nat) (proto : BaseType)
  | constructor (send_p : Bool) (vars : List BaseType)
  deriving Repr

inductive D4Group where
  | mk (vars : List BaseType) (groups : List D4Group)
  deriving Repr

def BaseType.send_p : BaseType → Bool
  | scalar send_p _ | array send_p _ _ | constructor send_p _ => send_p

def D4Group.vars : D4Group → List BaseType
  | mk vars _ => vars

def D4Group.groups : D4Group → List D4Group
  | mk _ groups => groups

/-- Conversion to a signed 64-bit integer. -/
def i64 (x : Int) : Int := (x + 2 ^ 63) % 2 ^ 64 - 2 ^ 63

/-! ## The code -/

mutual

/-- An `unsigned int`. -/
def BaseType.width (constrained : Bool) : BaseType → Nat
  | .scalar _ type => type.width
  | .array _ length proto => u32 (length * (proto.width constrained : Int))
  | .constructor _ vars => addWidth constrained 0 vars

/-- The loop of `Constructor::width`. -/
def addWidth (constrained : Bool) (sz : Nat) : List BaseType → Nat
  | [] => sz
  | v :: vars =>
    addWidth constrained (if constrained = true → v.send_p = true then u32 (sz + (v.width constrained : Int)) else sz) vars

end

/-- The loop over the variables of a group. -/
def addVars (constrained : Bool) (size : Int) : List BaseType → Int
  | [] => size
  | v :: vars =>
    addVars constrained (if constrained = true → v.send_p = true then i64 (size + v.width constrained) else size) vars

mutual

def D4Group.request_size (constrained : Bool) : D4Group → Int
  | .mk vars groups => (addGroups constrained (addVars constrained 0 vars) groups).tdiv 1024

/-- The loop over the child groups. -/
def addGroups (constrained : Bool) (size : Int) : List D4Group → Int
  | [] => size
  | g :: groups => addGroups constrained (i64 (size + g.request_size constrained)) groups

end

/-! ## The bytes -/

mutual

def BaseType.bytes (constrained : Bool) : BaseType → Nat
  | .scalar _ type => type.width
  | .array _ length proto => length * proto.bytes constrained
  | .constructor _ vars => bytesOf constrained vars

/-- The bytes of the variables, when constrained of those that are to be sent. -/
def bytesOf (constrained : Bool) : List BaseType → Nat
  | [] => 0
  | v :: vars => (if constrained = true → v.send_p = true then v.bytes constrained else 0) + bytesOf constrained vars

end

mutual

/-- The bytes of a group and of all that is below it. -/
def D4Group.bytes (constrained : Bool) : D4Group → Nat
  | .mk vars groups => bytesOf constrained vars + below constrained groups

def below (constrained : Bool) : List D4Group → Nat
  | [] => 0
  | g :: groups => g.bytes constrained + below constrained groups

end

section

variable {constrained : Bool}

mutual

/-- A width is the number of bytes as long as that is an `unsigned int`. -/
theorem width_eq (v : BaseType) : v.width constrained = v.bytes constrained % 2 ^ 32 := by
  cases v with
  | scalar send_p type => cases type <;> rfl
  | array send_p length proto =>
      rw [BaseType.width, BaseType.bytes, width_eq proto]
      rw [← Nat.cast_mul, u32_ofNat, Nat.mul_mod_mod]
  | constructor send_p vars =>
      rw [BaseType.width, BaseType.bytes, addWidth_eq 0 vars (by decide), Nat.zero_add]

theorem addWidth_eq (sz : Nat) (vars : List BaseType) (fits : sz < 2 ^ 32) :
    addWidth constrained sz vars = (sz + bytesOf constrained vars) % 2 ^ 32 := by
  cases vars with
  | nil => rw [addWidth, bytesOf, Nat.add_zero, Nat.mod_eq_of_lt fits]
  | cons v vars =>
      rw [addWidth, bytesOf]
      split
      · rw [addWidth_eq _ vars (u32_lt _), width_eq v, ← Nat.cast_add, u32_ofNat]
        omega
      · rw [addWidth_eq sz vars fits, Nat.zero_add]

end

/-- The widths of the variables that are counted. -/
def widths (constrained : Bool) : List BaseType → Nat
  | [] => 0
  | v :: vars => (if constrained = true → v.send_p = true then v.width constrained else 0) + widths constrained vars

theorem i64_of_fits {x : Int} (least : -2 ^ 63 ≤ x) (bound : x < 2 ^ 63) : i64 x = x := by
  simp only [i64]
  omega

theorem i64_lt (x : Int) : i64 x < 2 ^ 63 := by
  simp only [i64]
  omega

theorem widths_le (vars : List BaseType) : widths constrained vars ≤ bytesOf constrained vars := by
  induction vars with
  | nil => exact Nat.le_refl _
  | cons v vars ih =>
      rw [widths, bytesOf, width_eq]
      have less := Nat.mod_le (v.bytes constrained) (2 ^ 32)
      split <;> omega

/-- A variable that is too large for its width is told smaller by more than all of a small group. -/
theorem widths_eq_or (vars : List BaseType) :
    (∀ v ∈ vars, (constrained = true → v.send_p = true) → v.bytes constrained < 2 ^ 32) ∧
      widths constrained vars = bytesOf constrained vars ∨
    (∃ v ∈ vars, (constrained = true → v.send_p = true) ∧ 2 ^ 32 ≤ v.bytes constrained) ∧
      widths constrained vars + 2 ^ 32 ≤ bytesOf constrained vars := by
  induction vars with
  | nil => exact .inl ⟨List.forall_mem_nil _, rfl⟩
  | cons v vars ih =>
      rw [widths, bytesOf, width_eq]
      have less := Nat.mod_le (v.bytes constrained) (2 ^ 32)
      have rest := @widths_le constrained vars
      by_cases counted : constrained = true → v.send_p = true
      · rw [if_pos counted, if_pos counted]
        by_cases small : v.bytes constrained < 2 ^ 32
        · rw [Nat.mod_eq_of_lt small]
          rcases ih with ⟨all, same⟩ | ⟨⟨w, mem, large⟩, less⟩
          · exact .inl ⟨List.forall_mem_cons.mpr ⟨fun _ => small, all⟩, by rw [same]⟩
          · exact .inr ⟨⟨w, List.mem_cons_of_mem v mem, large⟩, by omega⟩
        · exact .inr ⟨⟨v, List.mem_cons_self, counted, Nat.le_of_not_lt small⟩, by omega⟩
      · rw [if_neg counted, if_neg counted]
        rcases ih with ⟨all, same⟩ | ⟨⟨w, mem, large⟩, less⟩
        · exact .inl ⟨List.forall_mem_cons.mpr ⟨fun counted' => absurd counted' counted, all⟩, by rw [same]⟩
        · exact .inr ⟨⟨w, List.mem_cons_of_mem v mem, large⟩, by omega⟩

theorem addVars_eq (vars : List BaseType) {size : Int} (nonneg : 0 ≤ size) (small : size + widths constrained vars < 2 ^ 63) :
    addVars constrained size vars = size + widths constrained vars := by
  induction vars generalizing size with
  | nil => rw [addVars, widths, Nat.cast_zero, Int.add_zero]
  | cons v vars ih =>
      rw [addVars, widths]
      rw [widths] at small
      split at small
      · rename_i counted
        rw [if_pos counted, if_pos counted, i64_of_fits (by omega) (by omega), ih (by omega) (by omega)]
        omega
      · rename_i counted
        rw [if_neg counted, if_neg counted, ih nonneg (by omega), Nat.zero_add]

theorem addVars_lt (vars : List BaseType) {size : Int} (fits : size < 2 ^ 63) : addVars constrained size vars < 2 ^ 63 := by
  induction vars generalizing size with
  | nil => exact fits
  | cons v vars ih =>
      rw [addVars]
      split
      · exact ih (i64_lt _)
      · exact ih fits

theorem addGroups_lt (groups : List D4Group) {size : Int} (fits : size < 2 ^ 63) :
    addGroups constrained size groups < 2 ^ 63 := by
  induction groups generalizing size with
  | nil =>
      rw [addGroups]
      exact fits
  | cons g groups ih =>
      rw [addGroups]
      exact ih (i64_lt _)

theorem tdiv_lt {x : Int} (bound : x < 2 ^ 63) : x.tdiv 1024 < 2 ^ 53 := by
  by_cases nonneg : 0 ≤ x
  · rw [Int.tdiv_eq_ediv_of_nonneg nonneg]
    omega
  · have negated := Int.neg_tdiv (-x) 1024
    have positive : (-x).tdiv 1024 = -x / 1024 := Int.tdiv_eq_ediv_of_nonneg (by omega)
    rw [Int.neg_neg, positive] at negated
    omega

/-- What the child groups say of themselves. -/
def sizes (constrained : Bool) (groups : List D4Group) : Int := (groups.map (D4Group.request_size constrained)).sum

theorem sizes_cons (g : D4Group) (groups : List D4Group) :
    sizes constrained (g :: groups) = g.request_size constrained + sizes constrained groups := List.sum_cons

mutual

/-- A group does not say more than a kilobyte for 1024 bytes. -/
theorem request_size_bounds (g : D4Group) (small : g.bytes constrained < 2 ^ 63) :
    g.request_size constrained = (widths constrained g.vars + sizes constrained g.groups) / 1024 ∧
      0 ≤ g.request_size constrained ∧ 1024 * g.request_size constrained ≤ g.bytes constrained := by
  cases g with
  | mk vars groups =>
      rw [D4Group.bytes] at small ⊢
      have own := @widths_le constrained vars
      have sum := addVars_eq vars (Int.le_refl 0) (show (0 : Int) + widths constrained vars < 2 ^ 63 by omega)
      obtain ⟨whole, nonneg, less⟩ := addGroups_bounds groups (addVars constrained 0 vars) (by omega) (by omega)
      rw [D4Group.request_size, whole, sum, Int.zero_add, Int.tdiv_eq_ediv_of_nonneg (by omega)]
      exact ⟨rfl, by omega, by omega⟩

theorem addGroups_bounds (groups : List D4Group) (size : Int) (nonneg : 0 ≤ size)
    (small : size + below constrained groups < 2 ^ 63) :
    addGroups constrained size groups = size + sizes constrained groups ∧ 0 ≤ sizes constrained groups ∧
      1024 * sizes constrained groups ≤ below constrained groups := by
  cases groups with
  | nil =>
      rw [addGroups, below]
      exact ⟨(Int.add_zero size).symm, Int.le_refl 0, Int.le_refl 0⟩
  | cons g groups =>
      rw [below] at small ⊢
      obtain ⟨-, least, bound⟩ := request_size_bounds g (by omega)
      have fits : i64 (size + g.request_size constrained) = size + g.request_size constrained :=
        i64_of_fits (by omega) (by omega)
      obtain ⟨whole, nonneg', less⟩ := addGroups_bounds groups (size + g.request_size constrained) (by omega) (by omega)
      rw [addGroups, fits, whole, sizes_cons]
      exact ⟨Int.add_assoc .., by omega, by omega⟩

end

theorem bytes_le_below {c : D4Group} {groups : List D4Group} (mem : c ∈ groups) :
    c.bytes constrained ≤ below constrained groups := by
  induction groups with
  | nil => cases mem
  | cons g groups ih =>
      rw [below]
      rcases List.mem_cons.mp mem with rfl | mem
      · exact Nat.le_add_right _ _
      · exact Nat.le_trans (ih mem) (Nat.le_add_left _ _)

theorem request_size_le_sizes {c : D4Group} {groups : List D4Group} (mem : c ∈ groups)
    (small : below constrained groups < 2 ^ 63) : c.request_size constrained ≤ sizes constrained groups := by
  induction groups with
  | nil => cases mem
  | cons g groups ih =>
      rw [below] at small
      obtain ⟨-, nonneg, -⟩ := request_size_bounds g (show g.bytes constrained < 2 ^ 63 by omega)
      obtain ⟨-, nonneg', -⟩ := @addGroups_bounds constrained groups 0 (Int.le_refl 0) (by omega)
      rw [sizes_cons]
      rcases List.mem_cons.mp mem with rfl | mem
      · omega
      · have less := ih mem (by omega)
        omega

theorem exists_of_sizes_pos {groups : List D4Group} (pos : 0 < sizes constrained groups) :
    ∃ c ∈ groups, 0 < c.request_size constrained := by
  induction groups with
  | nil => exact absurd pos (Int.lt_irrefl 0)
  | cons g groups ih =>
      by_cases first : 0 < g.request_size constrained
      · exact ⟨g, List.mem_cons_self, first⟩
      · rw [sizes_cons] at pos
        obtain ⟨c, mem, pos⟩ := ih (by omega)
        exact ⟨c, List.mem_cons_of_mem g mem, pos⟩

/-- The only kilobyte of a group below is that of its own variables. -/
theorem sizes_eq_one_iff {groups : List D4Group} (all : below constrained groups = 1024) :
    sizes constrained groups = 1 ↔ ∃ c ∈ groups, bytesOf constrained c.vars = 1024 := by
  obtain ⟨-, nonneg, less⟩ := @addGroups_bounds constrained groups 0 (Int.le_refl 0) (by omega)
  constructor
  · intro one
    obtain ⟨c, mem, pos⟩ := @exists_of_sizes_pos constrained groups (by omega)
    refine ⟨c, mem, ?_⟩
    have bound := @bytes_le_below constrained _ _ mem
    obtain ⟨whole, -, -⟩ := request_size_bounds c (show c.bytes constrained < 2 ^ 63 by omega)
    cases c with
    | mk vars groups' =>
        rw [D4Group.bytes] at bound
        have own := @widths_le constrained vars
        obtain ⟨-, -, less'⟩ := @addGroups_bounds constrained groups' 0 (Int.le_refl 0) (by omega)
        simp only [D4Group.vars, D4Group.groups] at whole ⊢
        omega
  · rintro ⟨c, mem, own⟩
    have bound := @bytes_le_below constrained _ _ mem
    have part := @request_size_le_sizes constrained _ _ mem (by omega)
    obtain ⟨whole, -, -⟩ := request_size_bounds c (show c.bytes constrained < 2 ^ 63 by omega)
    cases c with
    | mk vars groups' =>
        rw [D4Group.bytes] at bound
        obtain ⟨-, nonneg', -⟩ := @addGroups_bounds constrained groups' 0 (Int.le_refl 0) (by omega)
        simp only [D4Group.vars, D4Group.groups] at whole own
        rcases @widths_eq_or constrained vars with ⟨-, same⟩ | ⟨-, less'⟩
        · omega
        · omega

end

/-- The size is that of all variables when the child groups have nothing that counts: what is left of the own bytes
behind whole kilobytes and all that is below do not come to a kilobyte, or they come to it by one byte that is missing
and one kilobyte of the variables of a single child group. -/
theorem request_size_iff (constrained : Bool) (g : D4Group) :
    g.request_size constrained = (g.bytes constrained / 1024 : Nat) ↔
      g.bytes constrained < 2 ^ 63 ∧
      (∀ v ∈ g.vars, (constrained = true → v.send_p = true) → v.bytes constrained < 2 ^ 32) ∧
      (bytesOf constrained g.vars % 1024 + below constrained g.groups < 1024 ∨
        bytesOf constrained g.vars % 1024 = 1023 ∧ below constrained g.groups = 1024 ∧
          ∃ c ∈ g.groups, bytesOf constrained c.vars = 1024) := by
  have whole : g.bytes constrained = bytesOf constrained g.vars + below constrained g.groups := by
    cases g
    rw [D4Group.bytes, D4Group.vars, D4Group.groups]
  by_cases small : g.bytes constrained < 2 ^ 63
  · obtain ⟨size, -, -⟩ := request_size_bounds g small
    obtain ⟨-, nonneg, less⟩ := @addGroups_bounds constrained g.groups 0 (Int.le_refl 0) (by omega)
    rw [size]
    rcases @widths_eq_or constrained g.vars with ⟨fits, same⟩ | ⟨⟨v, mem, counted, large⟩, less'⟩
    · have one := @sizes_eq_one_iff constrained g.groups
      rw [same]
      constructor
      · intro exact_
        refine ⟨small, fits, ?_⟩
        by_cases little : bytesOf constrained g.vars % 1024 + below constrained g.groups < 1024
        · exact .inl little
        · have all : below constrained g.groups = 1024 := by omega
          exact .inr ⟨by omega, all, (one all).mp (by omega)⟩
      · rintro ⟨-, -, little | ⟨missing, all, child⟩⟩
        · omega
        · have kilobyte := (one all).mpr child
          omega
    · apply iff_of_false
      · omega
      · rintro ⟨-, fits, -⟩
        exact absurd (fits v mem counted) (Nat.not_lt.mpr large)
  · apply iff_of_false
    · cases g with
      | mk vars groups =>
          have bound := tdiv_lt (@addGroups_lt constrained groups _ (@addVars_lt constrained vars 0 (by decide)))
          rw [D4Group.request_size]
          intro same
          omega
    · exact fun both => small both.1

/-- Two kilobytes in a child group. -/
theorem nested_lost : ¬∀ (constrained : Bool) (g : D4Group), g.request_size constrained = (g.bytes constrained / 1024 : Nat) := by
  intro all
  have same := all false (.mk [] [.mk [.array true 512 (.scalar true .dods_int32_c)] []])
  revert same
  decide

end Libdap.Dap4.Request
