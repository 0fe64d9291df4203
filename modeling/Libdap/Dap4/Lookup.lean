import Libdap.Dap4.Dataset
import Libdap.Dap4.Index
import Libdap.Foundation.Separated

/-! # Names and lookups

The fully qualified names of what a dataset declares, put together on the way up
from the declaration to the root, and the lookups that take such a name apart on
the way down. Each of the four lookups does it in its own way.
-/

namespace Libdap.Dap4

/-- The number that a hexadecimal text stands for, as a `char`. A text without digits is
    taken for 0, also where the source leaves the value unset. -/
def hexCode (s : Name) : Nat :=
  let (negative, digits) := Numeral.sign (s.dropWhile Numeral.isspace)
  let value := (Numeral.digits 16 digits).1.foldl (fun n d => 16 * n + d) 0
  if negative then (256 - value % 256) % 256 else value % 256

def unhexstring (s : Name) : Name := if hexCode s = 0 then [] else [Char.ofNat (hexCode s)]

/-- A character is passed over behind each escape, and that is the one behind the escape
    when its own code is 0. -/
def www2id : Name → Name
  | [] => []
  | ['%'] => unhexstring []
  | ['%', a] => unhexstring [a]
  | '%' :: a :: b :: cs =>
    match unhexstring [a, b] with
    | [] =>
      match cs with
      | [] => []
      | c :: cs => c :: www2id cs
    | decoded => decoded ++ www2id cs
  | c :: cs => c :: www2id cs

namespace D4Group

/-- `D4Group::FQN`, with the names of the group and of its parents up to the root. -/
def FQN : List Name → Name
  | [] => []
  | name :: parents => if name = ['/'] then ['/'] else FQN parents ++ name ++ ['/']

end D4Group

/-- `D4Dimension::fully_qualified_name`, for a dimension of a group with these parents. -/
def fully_qualified_name (name : Name) : List Name → Name
  | [] => name
  | group :: parents =>
    fully_qualified_name (if group = ['/'] then '/' :: name else group ++ '/' :: name) parents

/-- `BaseType::FQN` and `Constructor::FQN`. The containers of the variable come first; an
    array adds nothing of its own to the name of what its element template contains. -/
def BaseType.FQN (groups : List Name) : List Name → Name
  | [] => []
  | [name] => D4Group.FQN groups ++ name
  | name :: containers => BaseType.FQN groups containers ++ '.' :: name

theorem length_unhexstring (s : Name) : (unhexstring s).length ≤ 1 := by
  unfold unhexstring
  split
  · exact Nat.zero_le 1
  · exact le_rfl

theorem length_www2id (s : Name) : (www2id s).length ≤ s.length := by
  fun_induction www2id s with
  | case1 => exact le_rfl
  | case2 => exact length_unhexstring []
  | case3 a => exact (length_unhexstring [a]).trans (by simp)
  | case4 a b none => simp
  | case5 a b none c cs ih => simp only [List.length_cons]; omega
  | case6 a b cs some ih =>
      have one := length_unhexstring [a, b]
      simp only [List.length_append, List.length_cons]
      omega
  | case7 c cs plain two one ih => simpa using ih

/-- `Constructor::var`, and `Vector::var` for the part of the name behind an array. -/
def lookupVar (vars : List BaseType) (name : Name) : Option BaseType :=
  let n := www2id name
  match vars.find? (·.name = n) with
  | some found => some found
  | none =>
    match _parts : splitFirst '.' n with
    | none => none
    | some (aggregate, field) =>
      match lookupVar vars aggregate with
      | none | some (.simple ..) => none
      | some (.constructor _ _ _ fields) => lookupVar fields field
      | some (.array _ _ _ proto) =>
        let f := www2id field
        if f = [] ∨ proto.name = f then some proto
        else
          match proto with
          | .constructor _ _ _ fields => lookupVar fields f
          | .simple .. | .array .. => none
termination_by name.length
decreasing_by
  all_goals
    have whole := length_www2id name
    have shorter : (www2id name).length = aggregate.length + (field.length + 1) := length_of_splitFirst _parts
    have rest := length_www2id field
    omega

def D4Dimensions.find_dim (h : Heap) (dims : List Nat) (name : Name) : Option Nat :=
  dims.find? fun dim => h.dims[dim]?.any (·.name = name)

namespace D4Group

/-- The part of a path that a group looks up: only the root takes one with a slash in front. -/
def lookupPath (name : Name) : Name → Except String Name
  | '/' :: path =>
    if name = ['/'] then pure path else throw "Lookup of a FQN starting in non-root group."
  | path => pure path

section

variable {α : Type} (here there : D4Group → Name → Option α)

mutual

/-- The lookups that go from group to group until the last name is left. -/
def descend : D4Group → Name → Except String (Option α)
  | .mk id name dims enumDefs vars groups, path => do
    let lpath ← lookupPath name path
    match splitFirst '/' lpath with
    | none => return here (.mk id name dims enumDefs vars groups) lpath
    | some (grp_name, rest) => descendIn groups grp_name rest

/-- `find_child_grp`, and the lookup in the group it finds. -/
def descendIn : List D4Group → Name → Name → Except String (Option α)
  | [], _, _ => return none
  | g :: groups, grp_name, path => if g.name = grp_name then descend g path else descendIn groups grp_name path

end

/-- The lookups that take what is behind the first slash for the name itself. -/
def descendOnce (g : D4Group) (path : Name) : Except String (Option α) := do
  let lpath ← lookupPath g.name path
  match splitFirst '/' lpath with
  | none => return here g lpath
  | some (grp_name, rest) => return (g.groups.find? (·.name = grp_name)).bind (there · rest)

end

/-- `D4EnumDefs::find_enum_def`. -/
def declaredEnum (g : D4Group) (name : Name) : Option D4EnumDef := g.enumDefs.find? (·.name = name)

def find_dim (h : Heap) (g : D4Group) (path : Name) : Except String (Option Nat) :=
  descend (fun g name => D4Dimensions.find_dim h g.dims name) g path

def find_var (g : D4Group) (path : Name) : Except String (Option BaseType) :=
  descend (fun g name => lookupVar g.vars name) g path

def find_enum_def (g : D4Group) (path : Name) : Except String (Option D4EnumDef) :=
  descendOnce declaredEnum declaredEnum g path

def m_find_map_source_helper (g : D4Group) (path : Name) : Except String (Option BaseType) :=
  descendOnce (fun g name => lookupVar g.vars name) (fun g name => lookupVar g.vars name) g path

def find_map_source (g : D4Group) (path : Name) : Except String (Option BaseType) := do
  match ← m_find_map_source_helper g path with
  | some (.array id name decl proto) => return some (.array id name decl proto)
  | _ => return none

end D4Group

end Libdap.Dap4
