import Libdap.Dap2.AttrTableNames
import Libdap.Dap4.ToDap2

/-! # Attributes in DAP4 and back

`transform_to_dap4` copies a table of DAP2, and `transform_attrs_to_dap2` makes a table again. The tables
are those without aliases in any state that is reached. Here `none` is an exception.
-/

namespace Libdap.Dap4.ToDap2

open Dap2 (AttrType String_to_AttrType remove_space_encoding Decoded)

def AttrType_to_String : AttrType → Name
  | .container => "Container".toList
  | .byte => "Byte".toList
  | .int16 => "Int16".toList
  | .uint16 => "UInt16".toList
  | .int32 => "Int32".toList
  | .uint32 => "UInt32".toList
  | .float32 => "Float32".toList
  | .float64 => "Float64".toList
  | .string => "String".toList
  | .url => "Url".toList
  | .other_xml => "OtherXML".toList
  | .unknown => []

/-- `append_attr` is given the text of a type, and has the type from it. -/
theorem String_to_AttrType_to_String (type : AttrType) : String_to_AttrType (AttrType_to_String type) = type := by
  cases type <;> decide +kernel

/-- The types in the `switch` of `transform_to_dap4`, but for containers. -/
def get_dap4_AttrType : AttrType → Option D4AttributeType
  | .byte => some .attr_byte_c
  | .int16 => some .attr_int16_c
  | .uint16 => some .attr_uint16_c
  | .int32 => some .attr_int32_c
  | .uint32 => some .attr_uint32_c
  | .float32 => some .attr_float32_c
  | .float64 => some .attr_float64_c
  | .string => some .attr_str_c
  | .url => some .attr_url_c
  | .other_xml => some .attr_otherxml_c
  | .unknown | .container => none

mutual

/-- One turn of the loop. -/
def transform_attr_to_dap4 : Entry → Option D4Attribute
  | .attr name type values => do return .mk name (← get_dap4_AttrType type) [] values
  | .container name attributes => do return .mk name .attr_container_c (← transform_to_dap4 attributes []) []

/-- `D4Attributes::transform_to_dap4`, with what there is already. -/
def transform_to_dap4 : List Entry → List D4Attribute → Option (List D4Attribute)
  | [], as => some as
  | e :: es, as => do transform_to_dap4 es (as ++ [← transform_attr_to_dap4 e])

end

/-! ## Tables without aliases -/

mutual

/-- An entry of a table that is no alias, with its values, and what is in it. -/
inductive Reads (vectors : List (List Name)) : Dap2.Entry → Entry → Prop where
  | attr {name : Name} {type : AttrType} {v : Nat} {values : List Name} : vectors[v]? = some values →
      Reads vectors (.attr name type none (some v)) (.attr name type values)
  | container {name d_name : Name} {addr : Nat} {d_parent : Option Nat} {attr_map : List Dap2.Entry} {es : List Entry} :
      ReadsIn vectors attr_map es → Reads vectors (.container name addr d_name d_parent attr_map) (.container name es)

inductive ReadsIn (vectors : List (List Name)) : List Dap2.Entry → List Entry → Prop where
  | nil : ReadsIn vectors [] []
  | cons {e : Dap2.Entry} {e' : Entry} {es : List Dap2.Entry} {es' : List Entry} : Reads vectors e e' →
      ReadsIn vectors es es' → ReadsIn vectors (e :: es) (e' :: es')

end

namespace Entry

mutual

/-- Types are known, attributes have values, and no two entries of a table have the same name. -/
def Sound : Entry → Prop
  | .attr _ type values => type ≠ .unknown ∧ type ≠ .container ∧ values ≠ []
  | .container _ attributes => SoundIn attributes

def SoundIn : List Entry → Prop
  | [] => True
  | e :: es => Sound e ∧ (∀ e' ∈ es, e'.name ≠ e.name) ∧ SoundIn es

end

mutual

/-- All names are decoded. -/
def Plain : Entry → Prop
  | .attr name _ _ => Decoded name
  | .container name attributes => Decoded name ∧ PlainIn attributes

def PlainIn : List Entry → Prop
  | [] => True
  | e :: es => Plain e ∧ PlainIn es

end

theorem Plain.name {e : Entry} (plain : e.Plain) : Decoded e.name := by
  cases e with
  | attr => exact plain
  | container => exact plain.1

end Entry

open Entry

section

variable {vectors : List (List Name)}

mutual

theorem Reads.plain {e : Dap2.Entry} {e' : Entry} (reads : Reads vectors e e') (clean : e.Clean) : e'.Plain := by
  cases reads with
  | attr => exact clean
  | container inner => exact ⟨clean.1, inner.plain clean.2⟩

theorem ReadsIn.plain {es : List Dap2.Entry} {es' : List Entry} (reads : ReadsIn vectors es es')
    (clean : Dap2.Entry.CleanIn es) : PlainIn es' := by
  cases reads with
  | nil => trivial
  | cons first others => exact ⟨first.plain clean.1, others.plain clean.2⟩

end

end

/-! ## There and back -/

theorem get_dap2_of_dap4 {type : AttrType} (known : type ≠ .unknown) (simple : type ≠ .container) :
    ∃ d4, get_dap4_AttrType type = some d4 ∧ get_dap2_AttrType d4 = some type ∧ d4 ≠ .attr_container_c := by
  cases type with
  | unknown => exact absurd rfl known
  | container => exact absurd rfl simple
  | _ => exact ⟨_, rfl, rfl, by decide⟩

/-- Entries with other names are passed over. -/
theorem append_attr_front {name : Name} (decoded : Decoded name) (type : AttrType) (value : Name) {front : List Entry}
    (fresh : ∀ e ∈ front, e.name ≠ name) (es : List Entry) :
    append_attr name type value (front ++ es) = (append_attr name type value es).map (front ++ ·) := by
  induction front with
  | nil => exact (congrFun Option.map_id (append_attr name type value es)).symm
  | cons e front ih =>
      obtain ⟨other, others⟩ := List.forall_mem_cons.mp fresh
      have passed : append_attr name type value (e :: (front ++ es)) =
          (append_attr name type value (front ++ es)).map (e :: ·) := by
        cases e with
        | attr n t values =>
            have differs : n ≠ name := other
            rw [append_attr, decoded, if_neg differs]
        | container n attributes =>
            have differs : n ≠ name := other
            rw [append_attr, decoded, if_neg differs]
      rw [List.cons_append, passed, ih others, Option.map_map]
      rfl

theorem append_attr_new {name : Name} (decoded : Decoded name) (type : AttrType) (value : Name) {es : List Entry}
    (fresh : ∀ e ∈ es, e.name ≠ name) : append_attr name type value es = some (es ++ [.attr name type [value]]) := by
  have end_ := append_attr_front decoded type value fresh []
  rwa [List.append_nil, append_attr, decoded] at end_

theorem append_attr_last {name : Name} (decoded : Decoded name) (type : AttrType) (value : Name) (values : List Name)
    {es : List Entry} (fresh : ∀ e ∈ es, e.name ≠ name) :
    append_attr name type value (es ++ [.attr name type values]) = some (es ++ [.attr name type (values ++ [value])]) := by
  rw [append_attr_front decoded type value fresh, append_attr, decoded, if_pos rfl, if_pos rfl]
  rfl

theorem append_attrs_last {name : Name} (decoded : Decoded name) (type : AttrType) (more values : List Name)
    {es : List Entry} (fresh : ∀ e ∈ es, e.name ≠ name) :
    append_attrs name type more (es ++ [.attr name type values]) = some (es ++ [.attr name type (values ++ more)]) := by
  induction more generalizing values with
  | nil => rw [append_attrs, List.append_nil]
  | cons value more ih =>
      rw [append_attrs, append_attr_last decoded type value values fresh]
      exact (ih (values ++ [value])).trans (by rw [List.append_assoc, List.singleton_append])

theorem append_attrs_new {name : Name} (decoded : Decoded name) (type : AttrType) {values : List Name} (some_ : values ≠ [])
    {es : List Entry} (fresh : ∀ e ∈ es, e.name ≠ name) :
    append_attrs name type values es = some (es ++ [.attr name type values]) := by
  obtain ⟨value, more, rfl⟩ := List.exists_cons_of_ne_nil some_
  rw [append_attrs, append_attr_new decoded type value fresh]
  exact append_attrs_last decoded type more [value] fresh

mutual

theorem transform_attr_back (e : Entry) (sound : e.Sound) (plain : e.Plain) {t : List Entry} (fresh : ∀ e' ∈ t, e'.name ≠ e.name) :
    ∃ a, transform_attr_to_dap4 e = some a ∧ transform_attr_to_dap2 a t = some (t ++ [e]) := by
  cases e with
  | attr name type values =>
      obtain ⟨known, simple, some_⟩ := sound
      obtain ⟨d4, to4, to2, noContainer⟩ := get_dap2_of_dap4 known simple
      refine ⟨.mk name d4 [] values, ?_, ?_⟩
      · rw [transform_attr_to_dap4, to4]
        rfl
      · rw [transform_attr_to_dap2, to2]
        exact (if_neg noContainer).trans (append_attrs_new plain type some_ fresh)
  | container name attributes =>
      obtain ⟨as, to4, to2⟩ := transform_attrs_back attributes sound plain.2 (t := []) (by simp) []
      refine ⟨.mk name .attr_container_c as [], ?_, ?_⟩
      · rw [transform_attr_to_dap4, to4]
        rfl
      · have free : t.any (fun e => decide (e.name = name)) = false := by
          rw [List.any_eq_false]
          intro e mem
          exact fun same => fresh e mem (of_decide_eq_true same)
        rw [transform_attr_to_dap2, to2]
        change append_container name attributes t = _
        rw [append_container, free, plain.1]
        rfl

theorem transform_attrs_back (es : List Entry) (sound : SoundIn es) (plain : PlainIn es) {t : List Entry}
    (fresh : ∀ e ∈ es, ∀ e' ∈ t, e'.name ≠ e.name) (before : List D4Attribute) :
    ∃ as, transform_to_dap4 es before = some (before ++ as) ∧ transform_attrs_to_dap2 as t = some (t ++ es) := by
  cases es with
  | nil => exact ⟨[], by rw [transform_to_dap4, List.append_nil], by rw [transform_attrs_to_dap2, List.append_nil]⟩
  | cons e es =>
      obtain ⟨first, others, sounds⟩ := sound
      obtain ⟨a, to4, to2⟩ := transform_attr_back e first plain.1 (fresh e List.mem_cons_self)
      have fresh' : ∀ e' ∈ es, ∀ e'' ∈ t ++ [e], e''.name ≠ e'.name := by
        intro e' mem e'' there
        obtain old | new := List.mem_append.mp there
        · exact fresh e' (List.mem_cons_of_mem _ mem) e'' old
        · rw [List.mem_singleton.mp new]
          exact (others e' mem).symm
      obtain ⟨as, tos4, tos2⟩ := transform_attrs_back es sounds plain.2 fresh' (before ++ [a])
      refine ⟨a :: as, ?_, ?_⟩
      · rw [transform_to_dap4, to4]
        exact tos4.trans (by rw [List.append_assoc, List.singleton_append])
      · rw [transform_attrs_to_dap2, to2]
        exact tos2.trans (by rw [List.append_assoc, List.singleton_append])

end

/-- Whatever has been done before, a table without aliases, with distinct names, known types and no attribute
without a value, comes back. -/
theorem attributes_round_trip {ops : List Dap2.Attributes.Op} {s : Dap2.Attributes}
    (run : Run Dap2.Attributes.Step ⟨[], ⟨[], 0, []⟩⟩ ops s) {k : Nat} {n : Dap2.Node} (at_ : s.table k = some n) {es : List Entry}
    (reads : ReadsIn s.store.vectors n.attr_map es) (sound : SoundIn es) :
    ∃ as, transform_to_dap4 es [] = some as ∧ transform_attrs_to_dap2 as [] = some es := by
  have plain := reads.plain ((Dap2.Attributes.run_clean run).table at_)
  exact transform_attrs_back es sound plain (by simp) []

/-- An attribute, and a container with another one in it that has two values. -/
theorem nested_round_trip :
    ∃ as, transform_to_dap4 [.attr ['a'] .byte [['1']], .container ['c'] [.attr ['b'] .url [['x'], ['y']]]] [] = some as ∧
      transform_attrs_to_dap2 as [] =
        some [.attr ['a'] .byte [['1']], .container ['c'] [.attr ['b'] .url [['x'], ['y']]]] := by
  have run : Run Dap2.Attributes.Step ⟨[], ⟨[], 0, []⟩⟩
      [.create, .append_attr 0 ['a'] "Byte".toList [['1']], .append_container 0 ['c'],
        .append_attr 1 ['b'] "Url".toList [['x'], ['y']]]
      ⟨[⟨⟨[], none, [.attr ['a'] .byte none (some 0), .container ['c'] 1 ['c'] (some 0) [.attr ['b'] .url none (some 1)]]⟩, 0⟩],
        ⟨[[['1']], [['x'], ['y']]], 2, []⟩⟩ :=
    .cons (.create _) (.cons (.append_attr rfl) (.cons (.append_container rfl) (.cons (.append_attr rfl) (.nil _))))
  have reads : ReadsIn [[['1']], [['x'], ['y']]]
      [.attr ['a'] .byte none (some 0), .container ['c'] 1 ['c'] (some 0) [.attr ['b'] .url none (some 1)]]
      [.attr ['a'] .byte [['1']], .container ['c'] [.attr ['b'] .url [['x'], ['y']]]] :=
    .cons (.attr rfl) (.cons (.container (.cons (.attr rfl) .nil)) .nil)
  apply attributes_round_trip run (k := 0) rfl reads
  simp [SoundIn, Sound, Entry.name]

end Libdap.Dap4.ToDap2
