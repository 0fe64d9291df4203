import Libdap.Dap4.ToDap2
import Libdap.Foundation.Matched

/-! # When a DMR can be read through DAP2

What a DDS made from a DMR should be, and for which DMRs it is so.
-/

namespace Libdap.Dap4.ToDap2

open Foundation (Matched)
open Dap2 (remove_space_encoding)

/-! ## What DAP2 can hold -/

def SimpleType.InDap2 : SimpleType → Bool
  | dods_byte_c | dods_int16_c | dods_uint16_c | dods_int32_c | dods_uint32_c | dods_float32_c | dods_float64_c
  | dods_str_c | dods_url_c => true
  | _ => false

/-- The type of DAP2 that has the values of a type. -/
def SimpleType.counterpart : SimpleType → Option SimpleType
  | dods_byte_c | dods_char_c | dods_int8_c | dods_uint8_c => some dods_byte_c
  | dods_int64_c | dods_uint64_c | dods_opaque_c => none
  | t => some t

namespace Variable

mutual

/-- Has only types of DAP2 at every level. -/
def InDap2 : Variable → Bool
  | simple _ _ t => t.InDap2
  | enum .. => false
  | array _ _ _ _ proto _ => InDap2 proto
  | struct _ _ vars | sequence _ _ vars => AllInDap2 vars

def AllInDap2 : List Variable → Bool
  | [] => true
  | v :: vs => InDap2 v && AllInDap2 vs

end

def is_enum : Variable → Bool
  | enum .. => true
  | _ => false

mutual

/-- All parts have a counterpart. A value of an enumeration is an integer; an array of them has none, since
    "they have no easy representation in the DAP2 data model". -/
def HasDap2 : Variable → Bool
  | simple _ _ t => t.counterpart.isSome
  | enum _ _ element_type _ _ => element_type.counterpart.isSome
  | array _ _ _ _ proto _ => !proto.is_enum && HasDap2 proto
  | struct _ _ vars | sequence _ _ vars => AllHaveDap2 vars

def AllHaveDap2 : List Variable → Bool
  | [] => true
  | v :: vs => HasDap2 v && AllHaveDap2 vs

end

end Variable

namespace Dap2Variable

mutual

def InDap2 : Dap2Variable → Bool
  | simple _ _ t => t.InDap2
  | array a => a.proto.InDap2
  | struct _ _ vars => AllInDap2 vars
  | sequence _ _ vars => Variable.AllInDap2 vars
  | grid _ _ a maps => a.proto.InDap2 && maps.all (·.proto.InDap2)

def AllInDap2 : List Dap2Variable → Bool
  | [] => true
  | r :: rs => InDap2 r && AllInDap2 rs

end

end Dap2Variable

/-! ## What the DDS should be -/

/-- A table has an attribute for what is left out, and in it one for the name. -/
def Listed (name : Name) (es : List Entry) : Prop :=
  ∃ dv_table attributes, .container droppedMembers dv_table ∈ es ∧
    .container (remove_space_encoding name) attributes ∈ dv_table

/-- An array with the same dimensions, made of the same but for the name, which is in DAP2. -/
def Array.Fits (shape : List Dimension) (proto : Variable) (a : Array) : Prop :=
  a.shape = shape ∧ (∃ n, a.proto.rename n = proto.rename n) ∧ proto.InDap2 = true

/-- The Maps of a Grid, without those for which there is nothing in DAP2. -/
def KeptMaps (es : List Entry) : List (MapArray Variable) → List Array → Prop :=
  Matched (fun m a => a.name = m.name ∧ a.Fits m.shape m.proto) fun m =>
    (!m.proto.is_enum && m.proto.HasDap2) = false ∧ Listed m.name es

mutual

/-- What a variable can be in DAP2, whatever its name. -/
inductive Fits : Variable → Dap2Variable → Prop where
  | simple {name attributes t name' es t'} : t.counterpart = some t' →
      Fits (.simple name attributes t) (.simple name' es t')
  | enum {name attributes element_type value enum_def name' es t'} : element_type.counterpart = some t' →
      Fits (.enum name attributes element_type value enum_def) (.simple name' es t')
  | array {name attributes is_dap4 shape proto maps a} : a.Fits shape proto →
      Fits (.array name attributes is_dap4 shape proto maps) (.array a)
  | grid {name attributes is_dap4 shape proto maps name' es a ms} : a.Fits shape proto → KeptMaps es maps ms →
      Fits (.array name attributes is_dap4 shape proto maps) (.grid name' es a ms)
  | struct {name attributes vars name' es rs} : Members [] es vars rs →
      Fits (.struct name attributes vars) (.struct name' es rs)
  | sequence {name attributes vars name' es} : Variable.AllInDap2 vars = true →
      Fits (.sequence name attributes vars) (.sequence name' es vars)

/-- The members of a container, of which one may be left out that has no counterpart and is listed. -/
inductive Members : Name → List Entry → List Variable → List Dap2Variable → Prop where
  | nil {pre es} : Members pre es [] []
  | kept {pre es v vs r rs} : r.name = pre ++ v.name → Fits v r → Members pre es vs rs →
      Members pre es (v :: vs) (r :: rs)
  | leftOut {pre es v vs rs} : v.HasDap2 = false → Listed v.name es → Members pre es vs rs →
      Members pre es (v :: vs) rs

end

/-- Where a group has its attributes, in the table of the group it is in. -/
def TableIn (name : Name) (es es' : List Entry) : Prop :=
  if D4Group.is_root name then es' = es else .container (remove_space_encoding name) es' ∈ es

def D4Group.name : D4Group → Name
  | mk name .. => name

mutual

/-- The variables of a group and of the groups in it are here under their fully qualified names. -/
inductive GroupIn : Name → List Entry → D4Group → List Dap2Variable → Prop where
  | mk {parent es name attributes vars groups rs rss} :
      Members (D4Group.namePrefix parent name) es vars rs →
      GroupsIn (D4Group.FQN parent name) es groups rss →
      GroupIn parent es (.mk name attributes vars groups) (rs ++ rss)

inductive GroupsIn : Name → List Entry → List D4Group → List Dap2Variable → Prop where
  | nil {parent es} : GroupsIn parent es [] []
  | cons {parent es es' g gs rs rss} : TableIn g.name es es' → GroupIn parent es' g rs →
      GroupsIn parent es gs rss → GroupsIn parent es (g :: gs) (rs ++ rss)

end

/-- Has only types of DAP2, and everything in the DMR that has a counterpart. -/
def DDS.Holds (dds : DDS) (dmr : DMR) : Prop :=
  Dap2Variable.AllInDap2 dds.vars = true ∧ GroupIn [] dds.attr_table dmr.root dds.vars

/-! ## When it is -/

def HasTable (attributes : List D4Attribute) : Prop := (transform_attrs_to_dap2 attributes []).isSome

namespace MapArray

def leftOut (m : MapArray Variable) : Bool := m.is_dap4 && m.proto.unmappable

/-- The array has no Maps itself, and is left out or is a vector that DAP2 can hold. -/
def Converts (m : MapArray Variable) : Prop :=
  is_dap2_grid m.is_dap4 m.maps = false ∧
    (m.leftOut = true ∨
      m.shape.length = 1 ∧ m.proto.InDap2 = true ∧ (m.is_dap4 = true → HasTable m.attributes))

end MapArray

def leftOutMaps (maps : List (MapArray Variable)) : List Dropped := (maps.filter (·.leftOut)).map (·.dropped)

namespace Variable

/-- For which there is nothing. -/
def leftOut : Variable → Bool
  | simple _ _ t => t.unmappable
  | array _ _ is_dap4 _ proto maps =>
    is_dap4 && !is_dap2_grid is_dap4 (maps.map (·.shape.length)) && proto.unmappable
  | _ => false

/-- What is told of those that are left out. -/
def leftOutOf (vars : List Variable) : List Dropped := (vars.filter leftOut).map dropped

mutual

/-- The attributes can be put into tables, and every part that is only copied is in DAP2 already: what an array is
    made of, and the members of a Sequence. An enumeration has a type of at most 32 bits. -/
def Converts : Variable → Prop
  | simple _ attributes t => t.unmappable = true ∨ HasTable attributes
  | enum _ attributes element_type value enum_def =>
    ∃ t, enumType element_type = some t ∧ t.InDap2 = true ∧ (enum_attributes attributes t value enum_def).isSome
  | array _ attributes is_dap4 _ proto maps =>
    if is_dap2_grid is_dap4 (maps.map (·.shape.length)) then
      proto.InDap2 = true ∧ HasTable attributes ∧ (∀ m ∈ maps, m.Converts) ∧
        (append_dropped (leftOutMaps maps) []).isSome
    else is_dap4 && proto.unmappable ∨ proto.InDap2 = true ∧ (is_dap4 = true → HasTable attributes)
  | struct _ attributes vars =>
    AllConvert vars ∧ ∃ es, transform_attrs_to_dap2 attributes [] = some es ∧
      (append_dropped (leftOutOf vars) es).isSome
  | sequence _ attributes vars => AllInDap2 vars = true ∧ HasTable attributes

def AllConvert : List Variable → Prop
  | [] => True
  | v :: vs => Converts v ∧ AllConvert vs

end

end Variable

namespace D4Group

mutual

/-- Every variable converts and keeps its name, in which nothing is taken for an escape. -/
def Converts (parent : Name) : D4Group → Prop
  | mk name _ vars groups =>
    Variable.AllConvert vars ∧
    (∀ v ∈ vars, v.leftOut = false →
      www2id (namePrefix parent name ++ v.name) = namePrefix parent name ++ v.name) ∧
    AllConvert (FQN parent name) groups

def AllConvert (parent : Name) : List D4Group → Prop
  | [] => True
  | g :: gs => Converts parent g ∧ AllConvert parent gs

end

mutual

/-- The table of a group, with those of the groups in it. -/
def table : D4Group → List Entry → Option (List Entry)
  | mk name attributes vars groups, parent_attr_table => do
    let es ← group_attrs name attributes parent_attr_table
    let es ← append_dropped (Variable.leftOutOf vars) es
    tables groups es

def tables : List D4Group → List Entry → Option (List Entry)
  | [], es => some es
  | g :: gs, es => do tables gs (← close_attrs g.name (← table g es) es)

end

end D4Group

/-! ## Types -/

namespace SimpleType

theorem unmappable_eq (t : SimpleType) : t.unmappable = t.counterpart.isNone := by cases t <;> rfl

theorem counterpart_toDap2 {t : SimpleType} (mapped : t.unmappable = false) : t.counterpart = some t.toDap2 := by
  cases t <;> first | rfl | exact absurd mapped (by decide)

theorem unmappable_of_inDap2 {t : SimpleType} (dap2 : t.InDap2 = true) : t.unmappable = false := by
  cases t <;> first | rfl | exact absurd dap2 (by decide)

/-- The integer types of 64 bits are the ones that an enumeration gets and DAP2 does not have. -/
theorem counterpart_enumType {element_type t : SimpleType} (made : enumType element_type = some t) :
    element_type.counterpart = some t ↔ t.InDap2 = true := by
  cases element_type <;> cases made <;> decide

end SimpleType

namespace Variable

theorem unmappable_of_inDap2 {v : Variable} (dap2 : v.InDap2 = true) : v.unmappable = false := by
  cases v with
  | simple name attributes t => exact SimpleType.unmappable_of_inDap2 dap2
  | enum => rw [InDap2] at dap2; exact absurd dap2 Bool.false_ne_true
  | array => rfl
  | struct => rfl
  | sequence => rfl

/-- Of what is left out as an array's elements there is no array in DAP2. -/
theorem elements_of_unmappable {v : Variable} (out : v.unmappable = true) : (!v.is_enum && v.HasDap2) = false := by
  cases v with
  | simple name attributes t =>
      rw [unmappable, SimpleType.unmappable_eq, Option.isNone_iff_eq_none] at out
      rw [HasDap2, out]
      rfl
  | enum => rfl
  | array => exact absurd out Bool.false_ne_true
  | struct => exact absurd out Bool.false_ne_true
  | sequence => exact absurd out Bool.false_ne_true

theorem hasDap2_of_leftOut {v : Variable} (out : v.leftOut = true) : v.HasDap2 = false := by
  cases v with
  | simple name attributes t =>
      rw [leftOut, SimpleType.unmappable_eq, Option.isNone_iff_eq_none] at out
      rw [HasDap2, out]
      rfl
  | array name attributes is_dap4 shape proto maps =>
      rw [leftOut, Bool.and_eq_true] at out
      rw [HasDap2]
      exact elements_of_unmappable out.2
  | enum => exact absurd out Bool.false_ne_true
  | struct => exact absurd out Bool.false_ne_true
  | sequence => exact absurd out Bool.false_ne_true

end Variable

/-- What is left out has nothing that it could be in DAP2. -/
theorem Fits.kept {v : Variable} {r : Dap2Variable} (fits : Fits v r) : v.leftOut = false := by
  cases fits with
  | simple found =>
      rw [Variable.leftOut, SimpleType.unmappable_eq, found]
      rfl
  | enum => rfl
  | @array name attributes is_dap4 shape proto maps a fits =>
      rw [Variable.leftOut, Variable.unmappable_of_inDap2 fits.2.2, Bool.and_false]
  | @grid name attributes is_dap4 shape proto maps name' es a ms fits =>
      rw [Variable.leftOut, Variable.unmappable_of_inDap2 fits.2.2, Bool.and_false]
  | struct => rfl
  | sequence => rfl

theorem Variable.inDap2_rename (n : Name) : (v : Variable) → (v.rename n).InDap2 = v.InDap2
  | simple .. | enum .. | struct .. | sequence .. => rfl
  | array _ _ _ _ proto _ => inDap2_rename n proto

theorem Array.Fits.inDap2 {shape : List Dimension} {proto : Variable} {a : Array} (fits : a.Fits shape proto) :
    a.proto.InDap2 = true := by
  obtain ⟨_, ⟨n, same⟩, dap2⟩ := fits
  rw [← Variable.inDap2_rename n, same, Variable.inDap2_rename]
  exact dap2

theorem KeptMaps.inDap2 {es : List Entry} {maps : List (MapArray Variable)} {as : List Array}
    (kept : KeptMaps es maps as) : as.all (·.proto.InDap2) = true := by
  induction kept with
  | nil => rfl
  | kept fits _ ih =>
      rw [List.all_cons, fits.2.inDap2, ih]
      rfl
  | leftOut _ _ ih => exact ih

mutual

theorem Fits.inDap2 {v : Variable} {r : Dap2Variable} (fits : Fits v r) : r.InDap2 = true := by
  cases fits with
  | @simple name attributes t name' es t' found =>
      rw [Dap2Variable.InDap2]
      cases t <;> cases found <;> rfl
  | @enum name attributes t value enum_def name' es t' found =>
      rw [Dap2Variable.InDap2]
      cases t <;> cases found <;> rfl
  | array fits => exact fits.inDap2
  | grid fits maps =>
      rw [Dap2Variable.InDap2, Bool.and_eq_true]
      exact ⟨fits.inDap2, maps.inDap2⟩
  | struct members => exact members.inDap2
  | sequence dap2 => exact dap2

theorem Members.inDap2 {pre : Name} {es : List Entry} {vs : List Variable} {rs : List Dap2Variable}
    (members : Members pre es vs rs) : Dap2Variable.AllInDap2 rs = true := by
  cases members with
  | nil => rfl
  | kept _ fits members =>
      rw [Dap2Variable.AllInDap2, fits.inDap2, members.inDap2]
      rfl
  | leftOut _ _ members => exact members.inDap2

end

/-! ## Tables -/

/-- Whatever container is in the one table is in the other. -/
def Grows (es es' : List Entry) : Prop :=
  ∀ name attributes, Entry.container name attributes ∈ es → Entry.container name attributes ∈ es'

theorem Grows.refl (es : List Entry) : Grows es es := fun _ _ mem => mem

theorem Grows.trans {es es' es'' : List Entry} (first : Grows es es') (second : Grows es' es'') : Grows es es'' :=
  fun name attributes mem => second name attributes (first name attributes mem)

theorem Listed.mono {name : Name} {es es' : List Entry} (listed : Listed name es) (grows : Grows es es') :
    Listed name es' := by
  obtain ⟨dv_table, attributes, there, inside⟩ := listed
  exact ⟨dv_table, attributes, grows _ _ there, inside⟩

theorem append_container_eq {name : Name} {attributes es es' : List Entry}
    (put : append_container name attributes es = some es') :
    es' = es ++ [.container (remove_space_encoding name) attributes] := by
  unfold append_container at put
  split at put
  · cases put
  · exact (Option.some.inj put).symm

theorem grows_append_container {name : Name} {attributes es es' : List Entry}
    (put : append_container name attributes es = some es') : Grows es es' := by
  rw [append_container_eq put]
  intro n c mem
  exact List.mem_append_left _ mem

theorem mem_append_container {name : Name} {attributes es es' : List Entry}
    (put : append_container name attributes es = some es') :
    .container (remove_space_encoding name) attributes ∈ es' := by
  rw [append_container_eq put]
  exact List.mem_append_right _ (List.mem_singleton_self _)

theorem grows_append_attr {name : Name} {type : Dap2.AttrType} {value : Name} {es es' : List Entry}
    (put : append_attr name type value es = some es') : Grows es es' := by
  fun_induction append_attr name type value es generalizing es' with
  | case1 => exact fun _ _ mem => absurd mem List.not_mem_nil
  | case2 =>
      cases put
      intro n c mem
      rcases List.mem_cons.mp mem with same | mem
      · cases same
      · exact List.mem_cons_of_mem _ mem
  | case3 => cases put
  | case4 n t values es _ ih =>
      obtain ⟨es'', inner, rfl⟩ := Option.map_eq_some_iff.mp put
      intro n c mem
      rcases List.mem_cons.mp mem with same | mem
      · cases same
      · exact List.mem_cons_of_mem _ (ih inner n c mem)
  | case5 => cases put
  | case6 n attributes es _ ih =>
      obtain ⟨es'', inner, rfl⟩ := Option.map_eq_some_iff.mp put
      intro n c mem
      rcases List.mem_cons.mp mem with same | mem
      · rw [same]
        exact List.mem_cons_self ..
      · exact List.mem_cons_of_mem _ (ih inner n c mem)

theorem grows_append_attrs {name : Name} {type : Dap2.AttrType} {values : List Name} {es es' : List Entry}
    (put : append_attrs name type values es = some es') : Grows es es' := by
  induction values generalizing es with
  | nil =>
      cases put
      exact Grows.refl _
  | cons value values ih =>
      obtain ⟨es₁, first, others⟩ := Option.bind_eq_some_iff.mp put
      exact (grows_append_attr first).trans (ih others)

theorem grows_copy_attrs {as es es' : List Entry} (put : D4Group.copy_attrs as es = some es') : Grows es es' := by
  induction as generalizing es with
  | nil =>
      cases put
      exact Grows.refl _
  | cons a as ih =>
      cases a with
      | attr name type values =>
          obtain ⟨es₁, first, others⟩ := Option.bind_eq_some_iff.mp put
          exact (grows_append_attrs first).trans (ih others)
      | container name attributes =>
          obtain ⟨es₁, first, others⟩ := Option.bind_eq_some_iff.mp put
          exact (grows_append_container first).trans (ih others)

/-- Each variable that was left out has an attribute. -/
theorem of_make_dropped_vars_attr_table {ds : List Dropped} {es dv_table : List Entry}
    (made : make_dropped_vars_attr_table ds es = some dv_table) :
    Grows es dv_table ∧ ∀ d ∈ ds, ∃ attributes, .container (remove_space_encoding d.name) attributes ∈ dv_table := by
  induction ds generalizing es with
  | nil =>
      cases made
      exact ⟨Grows.refl _, fun _ mem => absurd mem List.not_mem_nil⟩
  | cons d ds ih =>
      obtain ⟨attributes, _, made⟩ := Option.bind_eq_some_iff.mp made
      obtain ⟨es₁, put, made⟩ := Option.bind_eq_some_iff.mp made
      obtain ⟨grows, others⟩ := ih made
      refine ⟨(grows_append_container put).trans grows, ?_⟩
      intro d' mem
      rcases List.mem_cons.mp mem with rfl | mem
      · exact ⟨attributes, grows _ _ (mem_append_container put)⟩
      · exact others d' mem

theorem remove_space_encoding_droppedMembers : remove_space_encoding droppedMembers = droppedMembers := by decide

theorem grows_append_dropped {ds : List Dropped} {es es' : List Entry} (put : append_dropped ds es = some es') :
    Grows es es' := by
  unfold append_dropped at put
  split at put
  · cases put
    exact Grows.refl _
  · obtain ⟨dv_table, _, put⟩ := Option.bind_eq_some_iff.mp put
    exact grows_append_container put

theorem listed_of_append_dropped {ds : List Dropped} {es es' : List Entry} (put : append_dropped ds es = some es')
    {d : Dropped} (mem : d ∈ ds) : Listed d.name es' := by
  unfold append_dropped at put
  split at put
  · rename_i none_
    rw [List.isEmpty_iff.mp none_] at mem
    exact absurd mem List.not_mem_nil
  · obtain ⟨dv_table, made, put⟩ := Option.bind_eq_some_iff.mp put
    obtain ⟨attributes, there⟩ := (of_make_dropped_vars_attr_table made).2 d mem
    have put_ := mem_append_container put
    rw [remove_space_encoding_droppedMembers] at put_
    exact ⟨dv_table, attributes, put_, there⟩

/-! ## One variable -/

theorem MapArray.leftOut_elements {m : MapArray Variable} (out : m.leftOut = true) :
    (!m.proto.is_enum && m.proto.HasDap2) = false := by
  rw [leftOut, Bool.and_eq_true] at out
  exact Variable.elements_of_unmappable out.2

theorem MapArray.kept_of_inDap2 {m : MapArray Variable} (dap2 : m.proto.InDap2 = true) : m.leftOut = false := by
  rw [leftOut, Variable.unmappable_of_inDap2 dap2, Bool.and_false]

/-- What comes of an array that does not become a Grid. -/
theorem array_to_dap2_cases (name : Name) (attributes : List D4Attribute) (is_dap4 : Bool) (shape : List Dimension)
    (proto : Variable) :
    ((is_dap4 && proto.unmappable) = true ∧ array_to_dap2 name attributes is_dap4 shape proto = some none) ∨
    (is_dap4 && proto.unmappable) = false ∧
      (array_to_dap2 name attributes is_dap4 shape proto = none ∧ ¬ (is_dap4 = true → HasTable attributes) ∨
        ∃ es, array_to_dap2 name attributes is_dap4 shape proto = some (some ⟨name, es, shape, proto⟩) ∧
          (is_dap4 = true → HasTable attributes)) := by
  cases is_dap4 with
  | false =>
      right
      exact ⟨rfl, .inr ⟨[], rfl, fun impossible => absurd impossible Bool.false_ne_true⟩⟩
  | true =>
      cases out : proto.unmappable with
      | true =>
          left
          exact ⟨rfl, by rw [array_to_dap2, out]; rfl⟩
      | false =>
          right
          refine ⟨rfl, ?_⟩
          cases put : transform_attrs_to_dap2 attributes [] with
          | none =>
              left
              refine ⟨by rw [array_to_dap2, out, put]; rfl, ?_⟩
              intro table
              have put_ := table rfl
              rw [HasTable, put] at put_
              exact absurd put_ Bool.false_ne_true
          | some es =>
              right
              refine ⟨es, by rw [array_to_dap2, out, put]; rfl, ?_⟩
              intro _
              rw [HasTable, put]
              rfl

/-- The Maps of a Grid. -/
theorem maps_to_dap2_cases (maps : List (MapArray Variable)) :
    (maps_to_dap2 maps = none ∧ ¬ ∀ m ∈ maps, m.Converts) ∨
    ∃ as, maps_to_dap2 maps = some (as, leftOutMaps maps) ∧
      List.Forall₂ (fun m a => (a.name = m.name ∧ a.Fits m.shape m.proto) ↔ m.Converts)
        (maps.filter (!·.leftOut)) as ∧
      (∀ m ∈ maps, m.leftOut = true → m.Converts) := by
  induction maps with
  | nil =>
      right
      exact ⟨[], rfl, .nil, fun _ mem => absurd mem List.not_mem_nil⟩
  | cons m ms ih =>
      have here := List.mem_cons_self (a := m) (l := ms)
      have others : (∀ m' ∈ m :: ms, m'.Converts) → ∀ m' ∈ ms, m'.Converts :=
        fun all m' mem => all m' (List.mem_cons_of_mem _ mem)
      cases grid : is_dap2_grid m.is_dap4 m.maps with
      | true =>
          left
          refine ⟨by rw [maps_to_dap2, if_pos grid], ?_⟩
          intro all
          exact Bool.noConfusion (grid.symm.trans (all m here).1)
      | false =>
          have proceed : ¬ is_dap2_grid m.is_dap4 m.maps = true := by rw [grid]; exact Bool.false_ne_true
          rcases array_to_dap2_cases m.name m.attributes m.is_dap4 m.shape m.proto with
            ⟨out, made⟩ | ⟨kept, ⟨made, no⟩ | ⟨es, made, table⟩⟩
          · -- the Map is left out
            rcases ih with ⟨fails, no⟩ | ⟨as, made', fit, outs⟩
            · left
              refine ⟨by rw [maps_to_dap2, if_neg proceed, made, fails]; rfl, ?_⟩
              intro all
              exact no (others all)
            · right
              have out' : m.leftOut = true := out
              refine ⟨as, ?_, ?_, ?_⟩
              · rw [maps_to_dap2, if_neg proceed, made, made']
                simp only [leftOutMaps, List.filter_cons, out', if_true, List.map_cons]
                rfl
              · rw [List.filter_cons_of_neg (p := (!MapArray.leftOut ·)) (by rw [out']; exact Bool.false_ne_true)]
                exact fit
              · intro m' mem out'
                rcases List.mem_cons.mp mem with rfl | mem
                · exact ⟨grid, .inl out'⟩
                · exact outs m' mem out'
          · -- its attributes cannot be put into a table
            left
            refine ⟨by rw [maps_to_dap2, if_neg proceed, made]; rfl, ?_⟩
            intro all
            rcases (all m here).2 with out | ⟨_, _, table⟩
            · exact Bool.noConfusion (kept.symm.trans out)
            · exact no table
          · by_cases vector : m.shape.length = 1
            · rcases ih with ⟨fails, no⟩ | ⟨as, made', fit, outs⟩
              · left
                refine ⟨by rw [maps_to_dap2, if_neg proceed, made, fails]; simp, ?_⟩
                intro all
                exact no (others all)
              · right
                have kept' : m.leftOut = false := kept
                refine ⟨⟨m.name, es, m.shape, m.proto⟩ :: as, ?_, ?_, ?_⟩
                · rw [maps_to_dap2, if_neg proceed, made, made']
                  simp [vector, leftOutMaps, kept']
                · rw [List.filter_cons_of_pos (p := (!MapArray.leftOut ·)) (by rw [kept']; rfl)]
                  apply List.Forall₂.cons ?_ fit
                  constructor
                  · intro fits
                    exact ⟨grid, .inr ⟨vector, fits.2.2.2, table⟩⟩
                  · rintro ⟨_, out | ⟨_, dap2, _⟩⟩
                    · exact Bool.noConfusion (kept.symm.trans out)
                    · exact ⟨rfl, rfl, ⟨[], rfl⟩, dap2⟩
                · intro m' mem out'
                  rcases List.mem_cons.mp mem with rfl | mem
                  · exact Bool.noConfusion (kept.symm.trans out')
                  · exact outs m' mem out'
            · left
              refine ⟨by rw [maps_to_dap2, if_neg proceed, made]; simp [vector], ?_⟩
              intro all
              rcases (all m here).2 with out | ⟨vector', _⟩
              · exact Bool.noConfusion (kept.symm.trans out)
              · exact vector vector'

theorem Members.iff_matched {pre : Name} {es : List Entry} {vs : List Variable} {rs : List Dap2Variable} :
    Members pre es vs rs ↔
      Matched (fun v r => r.name = pre ++ v.name ∧ Fits v r) (fun v => v.HasDap2 = false ∧ Listed v.name es) vs rs := by
  constructor
  · intro members
    induction vs generalizing rs with
    | nil =>
        cases members
        exact .nil
    | cons v vs ih =>
        cases members with
        | kept named fits members => exact .kept ⟨named, fits⟩ (ih members)
        | leftOut no listed members => exact .leftOut ⟨no, listed⟩ (ih members)
  · intro matched
    induction matched with
    | nil => exact .nil
    | kept fits _ ih => exact .kept fits.1 fits.2 ih
    | leftOut may _ ih => exact .leftOut may.1 may.2 ih

namespace Variable

theorem allConvert_iff {vs : List Variable} : AllConvert vs ↔ ∀ v ∈ vs, v.Converts := by
  induction vs with
  | nil => exact ⟨fun _ _ mem => absurd mem List.not_mem_nil, fun _ => trivial⟩
  | cons v vs ih => rw [AllConvert, ih, List.forall_mem_cons]

/-- What comes of a variable: nothing if it is left out, and otherwise one that is right if and only if the
    variable converts. -/
def Turns (v : Variable) : Prop :=
  (v.leftOut = true ∧ v.transform_to_dap2 = some none ∧ v.Converts) ∨
  v.leftOut = false ∧
    (v.transform_to_dap2 = none ∧ ¬ v.Converts ∨
      ∃ r, v.transform_to_dap2 = some (some r) ∧ r.name = v.name ∧ (Fits v r ↔ v.Converts))

/-- What comes of a list of members. -/
def AllTurn (vs : List Variable) : Prop :=
  (members_to_dap2 vs = none ∧ ¬ AllConvert vs) ∨
  ∃ rs, members_to_dap2 vs = some (rs, leftOutOf vs) ∧
    List.Forall₂ (fun v r => r.name = v.name ∧ (Fits v r ↔ v.Converts)) (vs.filter (!leftOut ·)) rs ∧
    ∀ v ∈ vs, v.leftOut = true → v.Converts

theorem simple_turns (name : Name) (attributes : List D4Attribute) (t : SimpleType) :
    (simple name attributes t).Turns := by
  cases out : t.unmappable with
  | true =>
      left
      exact ⟨out, by rw [transform_to_dap2, if_pos out], .inl out⟩
  | false =>
      right
      have mapped : ¬ t.unmappable = true := by rw [out]; exact Bool.false_ne_true
      refine ⟨out, ?_⟩
      cases put : transform_attrs_to_dap2 attributes [] with
      | none =>
          left
          refine ⟨by rw [transform_to_dap2, if_neg mapped, put]; rfl, ?_⟩
          rintro (unmapped | table)
          · exact mapped unmapped
          · rw [HasTable, put] at table
            exact Bool.false_ne_true table
      | some es =>
          right
          refine ⟨.simple name es t.toDap2, by rw [transform_to_dap2, if_neg mapped, put]; rfl, rfl, ?_⟩
          constructor
          · intro _
            exact .inr (by rw [HasTable, put]; rfl)
          · intro _
            exact .simple (SimpleType.counterpart_toDap2 out)

theorem enum_turns (name : Name) (attributes : List D4Attribute) (element_type : SimpleType) (value : Int)
    (enum_def : List (Name × Int)) : (enum name attributes element_type value enum_def).Turns := by
  right
  refine ⟨rfl, ?_⟩
  cases made : enumType element_type with
  | none =>
      left
      refine ⟨by rw [transform_to_dap2, made]; rfl, ?_⟩
      rintro ⟨t, found, _⟩
      rw [made] at found
      cases found
  | some t =>
      cases put : enum_attributes attributes t value enum_def with
      | none =>
          left
          refine ⟨by rw [transform_to_dap2, made]; simp [put], ?_⟩
          rintro ⟨t', found, _, table⟩
          rw [made] at found
          cases found
          rw [put] at table
          exact Bool.false_ne_true table
      | some es =>
          right
          refine ⟨.simple name es t, by rw [transform_to_dap2, made]; simp [put], rfl, ?_⟩
          constructor
          · rintro (_ | found)
            exact ⟨t, made, (SimpleType.counterpart_enumType made).mp ‹_›, by rw [put]; rfl⟩
          · rintro ⟨t', found, dap2, _⟩
            rw [made] at found
            cases found
            exact .enum ((SimpleType.counterpart_enumType made).mpr dap2)

theorem sequence_turns (name : Name) (attributes : List D4Attribute) (vars : List Variable) :
    (sequence name attributes vars).Turns := by
  right
  refine ⟨rfl, ?_⟩
  cases put : transform_attrs_to_dap2 attributes [] with
  | none =>
      left
      refine ⟨by rw [transform_to_dap2, put]; rfl, ?_⟩
      rintro ⟨_, table⟩
      rw [HasTable, put] at table
      exact Bool.false_ne_true table
  | some es =>
      right
      refine ⟨.sequence name es vars, by rw [transform_to_dap2, put]; rfl, rfl, ?_⟩
      constructor
      · intro fits
        cases fits with
        | sequence dap2 => exact ⟨dap2, by rw [HasTable, put]; rfl⟩
      · intro converts
        exact .sequence converts.1

/-- The Maps that a Grid gets are the right ones if and only if each Map converts. -/
theorem keptMaps_iff {maps : List (MapArray Variable)} {es : List Entry} {as : List Array}
    (fit : List.Forall₂ (fun m a => (a.name = m.name ∧ a.Fits m.shape m.proto) ↔ m.Converts)
      (maps.filter (!MapArray.leftOut ·)) as)
    (outs : ∀ m ∈ maps, m.leftOut = true → m.Converts)
    (put : append_dropped (leftOutMaps maps) [] = some es) :
    KeptMaps es maps as ↔ ∀ m ∈ maps, m.Converts := by
  constructor
  · apply Matched.forall_of_matched fit ?_ outs
    intro m a fits
    exact MapArray.kept_of_inDap2 fits.2.2.2
  · apply Matched.of_forall fit
    intro m mem out
    have told : m.dropped ∈ leftOutMaps maps := List.mem_map_of_mem (List.mem_filter.mpr ⟨mem, out⟩)
    exact ⟨MapArray.leftOut_elements out, listed_of_append_dropped put told⟩

theorem array_turns (name : Name) (attributes : List D4Attribute) (is_dap4 : Bool) (shape : List Dimension)
    (proto : Variable) (maps : List (MapArray Variable)) :
    (array name attributes is_dap4 shape proto maps).Turns := by
  cases grid : is_dap2_grid is_dap4 (maps.map (·.shape.length)) with
  | true =>
      right
      refine ⟨by rw [leftOut, grid, Bool.not_true, Bool.and_false, Bool.false_and], ?_⟩
      have converts : (array name attributes is_dap4 shape proto maps).Converts ↔
          proto.InDap2 = true ∧ HasTable attributes ∧ (∀ m ∈ maps, m.Converts) ∧
            (append_dropped (leftOutMaps maps) []).isSome := by
        rw [Converts, if_pos grid]
      cases put : transform_attrs_to_dap2 attributes [] with
      | none =>
          left
          refine ⟨by rw [transform_to_dap2, if_pos grid, put]; rfl, ?_⟩
          rw [converts, HasTable, put]
          rintro ⟨_, table, _⟩
          exact Bool.false_ne_true table
      | some es =>
          rcases maps_to_dap2_cases maps with ⟨fails, no⟩ | ⟨as, made, fit, outs⟩
          · left
            refine ⟨by rw [transform_to_dap2, if_pos grid, put, fails]; rfl, ?_⟩
            rw [converts]
            rintro ⟨_, _, all, _⟩
            exact no all
          · cases told : append_dropped (leftOutMaps maps) [] with
            | none =>
                left
                refine ⟨by rw [transform_to_dap2, if_pos grid, put, made]; simp [told], ?_⟩
                rw [converts, told]
                rintro ⟨_, _, _, table⟩
                exact Bool.false_ne_true table
            | some es' =>
                right
                refine ⟨.grid name es' ⟨name, es, shape, proto⟩ as,
                  by rw [transform_to_dap2, if_pos grid, put, made]; simp [told], rfl, ?_⟩
                rw [converts, ← keptMaps_iff fit outs told, told, HasTable, put]
                constructor
                · intro fits
                  cases fits with
                  | grid fits kept => exact ⟨fits.2.2, rfl, kept, rfl⟩
                · rintro ⟨dap2, _, kept, _⟩
                  exact .grid ⟨rfl, ⟨[], rfl⟩, dap2⟩ kept
  | false =>
      have plain : ¬ is_dap2_grid is_dap4 (maps.map (·.shape.length)) = true := by
        rw [grid]
        exact Bool.false_ne_true
      have converts : (array name attributes is_dap4 shape proto maps).Converts ↔
          is_dap4 && proto.unmappable ∨ proto.InDap2 = true ∧ (is_dap4 = true → HasTable attributes) := by
        rw [Converts, if_neg plain]
      have out_iff : (array name attributes is_dap4 shape proto maps).leftOut = (is_dap4 && proto.unmappable) := by
        rw [leftOut, grid, Bool.not_false, Bool.and_true]
      rcases array_to_dap2_cases name attributes is_dap4 shape proto with
        ⟨out, made⟩ | ⟨kept, ⟨made, no⟩ | ⟨es, made, table⟩⟩
      · left
        exact ⟨out_iff.trans out, by rw [transform_to_dap2, if_neg plain, made]; rfl, converts.mpr (.inl out)⟩
      · right
        refine ⟨out_iff.trans kept, .inl ⟨by rw [transform_to_dap2, if_neg plain, made]; rfl, ?_⟩⟩
        rw [converts]
        rintro (out | ⟨_, table⟩)
        · exact Bool.noConfusion (kept.symm.trans out)
        · exact no table
      · right
        refine ⟨out_iff.trans kept, .inr ⟨.array ⟨name, es, shape, proto⟩,
          by rw [transform_to_dap2, if_neg plain, made]; rfl, rfl, ?_⟩⟩
        rw [converts]
        constructor
        · intro fits
          cases fits with
          | array fits => exact .inr ⟨fits.2.2, table⟩
        · rintro (out | ⟨dap2, _⟩)
          · exact Bool.noConfusion (kept.symm.trans out)
          · exact .array ⟨rfl, ⟨[], rfl⟩, dap2⟩

section

-- what the members became, and what becomes of that in the container
variable {pre : Name} {vs : List Variable} {rs : List Dap2Variable} {es : List Entry}
  {set : Dap2Variable → Dap2Variable} {P : Variable → Prop}
  (keeps : ∀ v r, Fits v (set r) ↔ Fits v r) (named : ∀ v r, r.name = v.name → ((set r).name = pre ++ v.name ↔ P v))
  (fit : List.Forall₂ (fun v r => r.name = v.name ∧ (Fits v r ↔ v.Converts)) (vs.filter (!leftOut ·)) rs)
include keeps named fit

theorem would_be_members : List.Forall₂
    (fun v r => (r.name = pre ++ v.name ∧ Fits v r) ↔ v.Converts ∧ (v.leftOut = false → P v))
    (vs.filter (!leftOut ·)) (rs.map set) := by
  rw [List.forall₂_map_right_iff]
  have kept : List.Forall₂ (fun v r => v.leftOut = false ∧ r.name = v.name ∧ (Fits v r ↔ v.Converts))
      (vs.filter (!leftOut ·)) rs := by
    apply (List.forall₂_and_left _ _).mpr
    refine ⟨?_, fit⟩
    intro v mem
    exact (Bool.not_eq_true' _).mp (List.mem_filter.mp mem).2
  apply kept.imp
  rintro v r ⟨out, same, fits⟩
  rw [named v r same, keeps, fits, and_comm]
  constructor
  · exact fun both => ⟨both.1, fun _ => both.2⟩
  · exact fun both => ⟨both.1, both.2 out⟩

/-- If the container has the right members, each converts. -/
theorem converts_of_members (outs : ∀ v ∈ vs, v.leftOut = true → v.Converts) (members : Members pre es vs (rs.map set)) :
    ∀ v ∈ vs, v.Converts ∧ (v.leftOut = false → P v) := by
  apply Matched.forall_of_matched (would_be_members keeps named fit) ?_ ?_ (Members.iff_matched.mp members)
  · intro v r fits
    exact fits.2.kept
  · intro v mem out
    refine ⟨outs v mem out, ?_⟩
    intro kept
    exact Bool.noConfusion (kept.symm.trans out)

theorem members_of_converts (listed : ∀ d ∈ leftOutOf vs, Listed d.name es)
    (all : ∀ v ∈ vs, v.Converts ∧ (v.leftOut = false → P v)) : Members pre es vs (rs.map set) := by
  rw [Members.iff_matched]
  apply Matched.of_forall (would_be_members keeps named fit) ?_ all
  intro v mem out
  have told : v.dropped ∈ leftOutOf vs := List.mem_map_of_mem (List.mem_filter.mpr ⟨mem, out⟩)
  have name_eq : v.dropped.name = v.name := by cases v <;> rfl
  exact ⟨hasDap2_of_leftOut out, name_eq ▸ listed _ told⟩

end

theorem struct_turns (name : Name) (attributes : List D4Attribute) {vars : List Variable} (turn : AllTurn vars) :
    (struct name attributes vars).Turns := by
  right
  refine ⟨rfl, ?_⟩
  cases put : transform_attrs_to_dap2 attributes [] with
  | none =>
      left
      refine ⟨by rw [transform_to_dap2, put]; rfl, ?_⟩
      rintro ⟨_, es, found, _⟩
      rw [put] at found
      cases found
  | some es =>
      rcases turn with ⟨fails, no⟩ | ⟨rs, made, fit, outs⟩
      · left
        refine ⟨by rw [transform_to_dap2, put, fails]; rfl, ?_⟩
        rintro ⟨all, _⟩
        exact no all
      · cases told : append_dropped (leftOutOf vars) es with
        | none =>
            left
            refine ⟨by rw [transform_to_dap2, put, made]; simp [told], ?_⟩
            rintro ⟨_, es', found, table⟩
            rw [put] at found
            cases found
            rw [told] at table
            exact Bool.false_ne_true table
        | some es' =>
            right
            refine ⟨.struct name es' rs, by rw [transform_to_dap2, put, made]; simp [told], rfl, ?_⟩
            have keeps : ∀ v r, Fits v (id r) ↔ Fits v r := fun _ _ => Iff.rfl
            have named : ∀ (v : Variable) (r : Dap2Variable), r.name = v.name → ((id r).name = [] ++ v.name ↔ True) :=
              fun _ _ same => ⟨fun _ => trivial, fun _ => same⟩
            constructor
            · intro fits
              cases fits with
              | struct members =>
                  rw [← List.map_id rs] at members
                  have all := converts_of_members keeps named fit outs members
                  exact ⟨allConvert_iff.mpr fun v mem => (all v mem).1, es, put, by rw [told]; rfl⟩
            · rintro ⟨all, _⟩
              have members := members_of_converts keeps named fit (fun _ mem => listed_of_append_dropped told mem)
                fun v mem => ⟨allConvert_iff.mp all v mem, fun _ => trivial⟩
              rw [List.map_id] at members
              exact .struct members

mutual

theorem turns : (v : Variable) → v.Turns
  | simple name attributes t => simple_turns name attributes t
  | enum name attributes element_type value enum_def => enum_turns name attributes element_type value enum_def
  | array name attributes is_dap4 shape proto maps => array_turns name attributes is_dap4 shape proto maps
  | struct name attributes vars => struct_turns name attributes (all_turn vars)
  | sequence name attributes vars => sequence_turns name attributes vars

theorem all_turn : (vs : List Variable) → AllTurn vs
  | [] => .inr ⟨[], rfl, .nil, fun _ mem => absurd mem List.not_mem_nil⟩
  | v :: vs => by
      rcases turns v with ⟨out, made, converts⟩ | ⟨kept, ⟨made, no⟩ | ⟨r, made, same, fits⟩⟩
      · rcases all_turn vs with ⟨fails, no⟩ | ⟨rs, made', fit, outs⟩
        · left
          refine ⟨by rw [members_to_dap2, made, fails]; rfl, ?_⟩
          rintro ⟨_, all⟩
          exact no all
        · right
          refine ⟨rs, ?_, ?_, ?_⟩
          · rw [members_to_dap2, made, made', leftOutOf, leftOutOf, List.filter_cons_of_pos out]
            rfl
          · rw [List.filter_cons_of_neg (p := (!leftOut ·)) (by rw [out]; exact Bool.false_ne_true)]
            exact fit
          · intro v' mem out'
            rcases List.mem_cons.mp mem with rfl | mem
            · exact converts
            · exact outs v' mem out'
      · left
        refine ⟨by rw [members_to_dap2, made]; rfl, ?_⟩
        rintro ⟨converts, _⟩
        exact no converts
      · have kept' : ¬ v.leftOut = true := by
          rw [kept]
          exact Bool.false_ne_true
        rcases all_turn vs with ⟨fails, no⟩ | ⟨rs, made', fit, outs⟩
        · left
          refine ⟨by rw [members_to_dap2, made, fails]; rfl, ?_⟩
          rintro ⟨_, all⟩
          exact no all
        · right
          refine ⟨r :: rs, ?_, ?_, ?_⟩
          · rw [members_to_dap2, made, made', leftOutOf, leftOutOf, List.filter_cons_of_neg kept']
            rfl
          · rw [List.filter_cons_of_pos (p := (!leftOut ·)) (by rw [kept]; rfl)]
            exact .cons ⟨same, fits⟩ fit
          · intro v' mem out'
            rcases List.mem_cons.mp mem with rfl | mem
            · exact absurd out' kept'
            · exact outs v' mem out'

end

end Variable

/-! ## Groups -/

theorem Variable.rename_rename (m n : Name) : (v : Variable) → (v.rename m).rename n = v.rename n
  | simple .. | enum .. | struct .. | sequence .. => rfl
  | array _ as d shape proto maps => congrArg (array n as d shape · maps) (rename_rename m n proto)

theorem Array.fits_rename {shape : List Dimension} {proto : Variable} {a : Array} (m : Name) :
    ({ a with name := m, proto := a.proto.rename m } : Array).Fits shape proto ↔ a.Fits shape proto := by
  simp only [Array.Fits, Variable.rename_rename]

theorem fits_set_name {v : Variable} {r : Dap2Variable} (n : Name) : Fits v (r.set_name n) ↔ Fits v r := by
  constructor
  · intro fits
    cases r with
    | simple name es t => cases fits with
      | simple found => exact .simple found
      | enum found => exact .enum found
    | array a => cases fits with
      | array fits => exact .array ((Array.fits_rename _).mp fits)
    | struct name es vars => cases fits with
      | struct members => exact .struct members
    | sequence name es vars => cases fits with
      | sequence dap2 => exact .sequence dap2
    | grid name es a maps => cases fits with
      | grid fits kept => exact .grid fits kept
  · intro fits
    cases fits with
    | simple found => exact .simple found
    | enum found => exact .enum found
    | array fits => exact .array ((Array.fits_rename _).mpr fits)
    | struct members => exact .struct members
    | sequence dap2 => exact .sequence dap2
    | grid fits kept => exact .grid fits kept

theorem name_set_name (r : Dap2Variable) (n : Name) : (r.set_name n).name = www2id n := by cases r <;> rfl

namespace D4Group

/-- The variable under the name that it gets in a group. -/
def qualify (pre : Name) (r : Dap2Variable) : Dap2Variable := r.set_name (pre ++ r.name)

mutual

/-- The variables alone. -/
def results (parent : Name) : D4Group → Option (List Dap2Variable)
  | mk name _ vars groups => do
    let made ← Variable.members_to_dap2 vars
    return made.1.map (qualify (namePrefix parent name)) ++ (← resultsOf (FQN parent name) groups)

def resultsOf (parent : Name) : List D4Group → Option (List Dap2Variable)
  | [] => some []
  | g :: gs => do return (← results parent g) ++ (← resultsOf parent gs)

end

mutual

/-- The variables and the table do not depend on one another. -/
theorem transform_to_dap2_eq (parent : Name) : (g : D4Group) → (es : List Entry) →
    transform_to_dap2 parent g es = (results parent g).bind fun rs =>
      (table g es).bind fun own => (close_attrs g.name own es).map fun es' => (rs, es')
  | mk name attributes vars groups, es => by
      rw [transform_to_dap2, results, table]
      cases opened : group_attrs name attributes es with
      | none => simp
      | some es₁ =>
          rcases Variable.all_turn vars with ⟨fails, _⟩ | ⟨rs, made, _⟩
          · simp [fails]
          · cases told : append_dropped (Variable.leftOutOf vars) es₁ with
            | none => simp [made, told]
            | some es₂ =>
                have others := groups_to_dap2_eq (FQN parent name) groups es₂
                cases results_ : resultsOf (FQN parent name) groups with
                | none => simp [made, told, others, results_]
                | some rss =>
                    cases tables_ : tables groups es₂ with
                    | none => simp [made, told, others, results_, tables_]
                    | some es₃ =>
                        cases closed : close_attrs name es₃ es with
                        | none => simp [made, told, others, results_, tables_, closed, D4Group.name]
                        | some es₄ =>
                            simp only [made, told, others, results_, tables_, closed, D4Group.name,
                              Option.bind_eq_bind, Option.bind_some, Option.map_some]
                            rfl

theorem groups_to_dap2_eq (parent : Name) : (gs : List D4Group) → (es : List Entry) →
    groups_to_dap2 parent gs es = (resultsOf parent gs).bind fun rs => (tables gs es).map fun es' => (rs, es')
  | [], es => rfl
  | g :: gs, es => by
      rw [groups_to_dap2, resultsOf, tables, transform_to_dap2_eq parent g es]
      cases results parent g with
      | none => rfl
      | some rs =>
          cases table g es with
          | none => cases resultsOf parent gs <;> rfl
          | some own =>
              cases closed : close_attrs g.name own es with
              | none => cases resultsOf parent gs <;> simp [closed]
              | some es₁ =>
                  have others := groups_to_dap2_eq parent gs es₁
                  cases results_ : resultsOf parent gs with
                  | none => simp [closed, others, results_]
                  | some rss => cases tables_ : tables gs es₁ <;> simp [closed, others, results_, tables_]

end

/-! ### How many there are -/

mutual

def keptCount : D4Group → Nat
  | mk _ _ vars groups => (vars.filter (!Variable.leftOut ·)).length + keptCounts groups

def keptCounts : List D4Group → Nat
  | [] => 0
  | g :: gs => keptCount g + keptCounts gs

end

mutual

theorem length_results {parent : Name} : {g : D4Group} → {rs : List Dap2Variable} → results parent g = some rs →
    rs.length = keptCount g
  | mk name attributes vars groups, rs, made => by
      obtain ⟨⟨own, dropped⟩, members, made⟩ := Option.bind_eq_some_iff.mp made
      obtain ⟨rss, others, made⟩ := Option.bind_eq_some_iff.mp made
      cases made
      rcases Variable.all_turn vars with ⟨fails, _⟩ | ⟨own', members', fit, _⟩
      · rw [fails] at members
        cases members
      · rw [members'] at members
        cases members
        rw [List.length_append, List.length_map, keptCount, fit.length_eq, length_resultsOf others]

theorem length_resultsOf {parent : Name} : {gs : List D4Group} → {rs : List Dap2Variable} →
    resultsOf parent gs = some rs → rs.length = keptCounts gs
  | [], rs, made => by
      cases made
      rfl
  | g :: gs, rs, made => by
      obtain ⟨own, first, made⟩ := Option.bind_eq_some_iff.mp made
      obtain ⟨rss, others, made⟩ := Option.bind_eq_some_iff.mp made
      cases made
      rw [List.length_append, keptCounts, length_results first, length_resultsOf others]

end

theorem length_members {pre : Name} {es : List Entry} {vs : List Variable} {rs : List Dap2Variable}
    (members : Members pre es vs rs) : rs.length ≤ (vs.filter (!Variable.leftOut ·)).length := by
  apply Matched.length_le _ (Members.iff_matched.mp members)
  intro v r fits
  exact fits.2.kept

mutual

theorem length_groupIn {parent : Name} {es : List Entry} : {g : D4Group} → {rs : List Dap2Variable} →
    GroupIn parent es g rs → rs.length ≤ keptCount g
  | mk name attributes vars groups, _, .mk members others => by
      rw [List.length_append, keptCount]
      exact Nat.add_le_add (length_members members) (length_groupsIn others)

theorem length_groupsIn {parent : Name} {es : List Entry} : {gs : List D4Group} → {rs : List Dap2Variable} →
    GroupsIn parent es gs rs → rs.length ≤ keptCounts gs
  | [], _, .nil => Nat.le_refl 0
  | g :: gs, _, .cons _ first others => by
      rw [List.length_append, keptCounts]
      exact Nat.add_le_add (length_groupIn first) (length_groupsIn others)

end

/-- Of lists that are as long together as they can be, each is as long as it can be. -/
theorem split_append {as bs as' bs' : List Dap2Variable} {m n : Nat} (same : as ++ bs = as' ++ bs')
    (most : as.length ≤ m) (most' : bs.length ≤ n) (exact_ : as'.length = m) (exact' : bs'.length = n) :
    as = as' ∧ bs = bs' := by
  have total := congrArg List.length same
  rw [List.length_append, List.length_append] at total
  exact List.append_inj same (by omega)

/-! ### What a group becomes -/

section

variable {pre : Name}

theorem keeps_qualify (v : Variable) (r : Dap2Variable) : Fits v (qualify pre r) ↔ Fits v r := fits_set_name _

theorem named_qualify (v : Variable) (r : Dap2Variable) (same : r.name = v.name) :
    (qualify pre r).name = pre ++ v.name ↔ www2id (pre ++ v.name) = pre ++ v.name := by
  rw [qualify, name_set_name, same]

end

mutual

theorem converts_of_groupIn {parent : Name} {es : List Entry} : {g : D4Group} → {rs : List Dap2Variable} →
    results parent g = some rs → GroupIn parent es g rs → Converts parent g
  | mk name attributes vars groups, rs, made, there => by
      obtain ⟨⟨own, dropped⟩, turned, made⟩ := Option.bind_eq_some_iff.mp made
      obtain ⟨rss, others, made⟩ := Option.bind_eq_some_iff.mp made
      rcases Variable.all_turn vars with ⟨fails, _⟩ | ⟨own₁, turned₁, fit, outs⟩
      · rw [fails] at turned
        cases turned
      · rw [turned₁] at turned
        cases turned
        cases there with
        | mk members there =>
            obtain ⟨rfl, rfl⟩ := split_append (Option.some.inj made).symm (length_members members)
              (length_groupsIn there) (by rw [List.length_map, fit.length_eq]) (length_resultsOf others)
            have all := Variable.converts_of_members keeps_qualify named_qualify fit outs members
            refine ⟨Variable.allConvert_iff.mpr fun v mem => (all v mem).1, fun v mem => (all v mem).2, ?_⟩
            exact allConvert_of_groupsIn others there

theorem allConvert_of_groupsIn {parent : Name} {es : List Entry} : {gs : List D4Group} →
    {rs : List Dap2Variable} → resultsOf parent gs = some rs → GroupsIn parent es gs rs → AllConvert parent gs
  | [], _, _, _ => trivial
  | g :: gs, _, made, .cons _ here there => by
      obtain ⟨own, first, made⟩ := Option.bind_eq_some_iff.mp made
      obtain ⟨rss, others, made⟩ := Option.bind_eq_some_iff.mp made
      obtain ⟨rfl, rfl⟩ := split_append (Option.some.inj made).symm (length_groupIn here)
        (length_groupsIn there) (length_results first) (length_resultsOf others)
      exact ⟨converts_of_groupIn first here, allConvert_of_groupsIn others there⟩

end

end D4Group

theorem Members.mono {pre : Name} {es es' : List Entry} {vs : List Variable} {rs : List Dap2Variable}
    (members : Members pre es vs rs) (grows : Grows es es') : Members pre es' vs rs := by
  induction vs generalizing rs with
  | nil =>
      cases members
      exact .nil
  | cons v vs ih =>
      cases members with
      | kept named fits members => exact .kept named fits (ih members)
      | leftOut no listed members => exact .leftOut no (listed.mono grows) (ih members)

namespace D4Group

mutual

theorem groupIn_mono {parent : Name} {es es' : List Entry} (grows : Grows es es') : {g : D4Group} →
    {rs : List Dap2Variable} → GroupIn parent es g rs → GroupIn parent es' g rs
  | mk .., _, .mk members others => .mk (members.mono grows) (groupsIn_mono grows others)

theorem groupsIn_mono {parent : Name} {es es' : List Entry} (grows : Grows es es') : {gs : List D4Group} →
    {rs : List Dap2Variable} → GroupsIn parent es gs rs → GroupsIn parent es' gs rs
  | [], _, .nil => .nil
  | g :: gs, _, .cons there first others => by
      by_cases root : is_root g.name
      · rw [TableIn, if_pos root] at there
        subst there
        exact .cons (by rw [TableIn, if_pos root]) (groupIn_mono grows first) (groupsIn_mono grows others)
      · rw [TableIn, if_neg root] at there
        exact .cons (by rw [TableIn, if_neg root]; exact grows _ _ there) first (groupsIn_mono grows others)

end

/-- What is in a group stays so in a table that has grown around its own. -/
theorem child_mono {parent : Name} {es es' own : List Entry} {g : D4Group} {rs : List Dap2Variable}
    (grows : Grows es es') (in_ : TableIn g.name es own) (there : GroupIn parent own g rs) :
    ∃ own', TableIn g.name es' own' ∧ GroupIn parent own' g rs := by
  unfold TableIn at in_ ⊢
  by_cases root : is_root g.name
  · rw [if_pos root] at in_
    subst in_
    exact ⟨es', by rw [if_pos root], groupIn_mono grows there⟩
  · rw [if_neg root] at in_
    exact ⟨own, by rw [if_neg root]; exact grows _ _ in_, there⟩

/-- Where the table of a group went. -/
theorem of_close_attrs {name : Name} {own es es' : List Entry} (closed : close_attrs name own es = some es')
    (grows : is_root name → Grows es own) : Grows es es' ∧ TableIn name es' own := by
  unfold close_attrs at closed
  unfold TableIn
  split at closed
  · rename_i root
    cases closed
    exact ⟨grows root, by rw [if_pos root]⟩
  · rename_i inner
    exact ⟨grows_append_container closed, by rw [if_neg inner]; exact mem_append_container closed⟩

mutual

theorem grows_table : {g : D4Group} → {es own : List Entry} → is_root g.name → table g es = some own → Grows es own
  | mk name attributes vars groups, es, own, root, made => by
      rw [table] at made
      obtain ⟨es₁, opened, made⟩ := Option.bind_eq_some_iff.mp made
      obtain ⟨es₂, told, made⟩ := Option.bind_eq_some_iff.mp made
      obtain ⟨as, _, put⟩ := Option.bind_eq_some_iff.mp opened
      rw [if_pos (show is_root name from root)] at put
      exact ((grows_copy_attrs put).trans (grows_append_dropped told)).trans (grows_tables made)

theorem grows_tables : {gs : List D4Group} → {es es' : List Entry} → tables gs es = some es' → Grows es es'
  | [], es, es', made => by
      cases made
      exact Grows.refl _
  | g :: gs, es, es', made => by
      rw [tables] at made
      obtain ⟨own, first, made⟩ := Option.bind_eq_some_iff.mp made
      obtain ⟨es₁, closed, made⟩ := Option.bind_eq_some_iff.mp made
      exact (of_close_attrs closed fun root => grows_table root first).1.trans (grows_tables made)

end

mutual

theorem groupIn_of_converts {parent : Name} : {g : D4Group} → {es own : List Entry} → Converts parent g →
    table g es = some own → ∃ rs, results parent g = some rs ∧ GroupIn parent own g rs
  | mk name attributes vars groups, es, own, ⟨all, named, inner⟩, made => by
      rw [table] at made
      obtain ⟨es₁, opened, made⟩ := Option.bind_eq_some_iff.mp made
      obtain ⟨es₂, told, made⟩ := Option.bind_eq_some_iff.mp made
      rcases Variable.all_turn vars with ⟨_, no⟩ | ⟨rs, turned, fit, outs⟩
      · exact absurd all no
      · obtain ⟨rss, others, there⟩ := groupsIn_of_converts inner made
        have listed : ∀ d ∈ Variable.leftOutOf vars, Listed d.name own :=
          fun d mem => (listed_of_append_dropped told mem).mono (grows_tables made)
        have members := Variable.members_of_converts keeps_qualify named_qualify fit listed
          fun v mem => ⟨Variable.allConvert_iff.mp all v mem, named v mem⟩
        refine ⟨rs.map (qualify (namePrefix parent name)) ++ rss, ?_, .mk members there⟩
        rw [results, turned, others]
        rfl

theorem groupsIn_of_converts {parent : Name} : {gs : List D4Group} → {es es' : List Entry} → AllConvert parent gs →
    tables gs es = some es' → ∃ rs, resultsOf parent gs = some rs ∧ GroupsIn parent es' gs rs
  | [], es, es', _, _ => ⟨[], rfl, .nil⟩
  | g :: gs, es, es', ⟨here, inner⟩, made => by
      rw [tables] at made
      obtain ⟨own, first, made⟩ := Option.bind_eq_some_iff.mp made
      obtain ⟨es₁, closed, made⟩ := Option.bind_eq_some_iff.mp made
      obtain ⟨rs, first_, there⟩ := groupIn_of_converts here first
      obtain ⟨rss, others, there'⟩ := groupsIn_of_converts inner made
      have in_ : TableIn g.name es₁ own := (of_close_attrs closed fun root => grows_table root first).2
      obtain ⟨own', in_', there⟩ := child_mono (grows_tables made) in_ there
      exact ⟨rs ++ rss, by rw [resultsOf, first_, others]; rfl, .cons in_' there there'⟩

end

theorem allInDap2_append (rs rss : List Dap2Variable) :
    Dap2Variable.AllInDap2 (rs ++ rss) = (Dap2Variable.AllInDap2 rs && Dap2Variable.AllInDap2 rss) := by
  induction rs with
  | nil => rfl
  | cons r rs ih => rw [List.cons_append, Dap2Variable.AllInDap2, Dap2Variable.AllInDap2, ih, Bool.and_assoc]

mutual

theorem inDap2_of_groupIn {parent : Name} {es : List Entry} : {g : D4Group} → {rs : List Dap2Variable} →
    GroupIn parent es g rs → Dap2Variable.AllInDap2 rs = true
  | mk .., _, .mk members others => by
      rw [allInDap2_append, members.inDap2, inDap2_of_groupsIn others]
      rfl

theorem inDap2_of_groupsIn {parent : Name} {es : List Entry} : {gs : List D4Group} → {rs : List Dap2Variable} →
    GroupsIn parent es gs rs → Dap2Variable.AllInDap2 rs = true
  | [], _, .nil => rfl
  | g :: gs, _, .cons _ first others => by
      rw [allInDap2_append, inDap2_of_groupIn first, inDap2_of_groupsIn others]
      rfl

end

end D4Group

/-- A table of counts, an array of Structures with an `Int64` in each. -/
def counts : DMR where
  attributes := []
  vars := [.array ['c'] [] true [⟨⟨3, 0, 2, 1, 3⟩, ['x'], none, false⟩]
    (.struct ['c'] [] [.simple ['n'] [] .dods_int64_c]) []]
  groups := []

/-- A variable of a group has the name of the group before its own, and one that is left out is listed. -/
example : (DMR.mk [] [] [.mk ['g'] [] [.simple ['b'] [] .dods_int8_c, .simple ['n'] [] .dods_int64_c] []]).getDDS =
    some ⟨[.simple "/g/b".toList [] .dods_byte_c], [.container ['g'] [.container droppedMembers
      [.container ['n'] [.attr "dap4:type".toList .string ["Int64".toList]]]]]⟩ := rfl

end Libdap.Dap4.ToDap2
