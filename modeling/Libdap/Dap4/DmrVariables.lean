import Libdap.Dap4.DmrDescent

/-! # Variables of a document

A variable stands on top of the stack of variables while its content is read, and is an array
from its first `Dim` or `Map` on. Its end tag adds it to what is below.
-/

namespace Libdap.Dap4.Dmr

open Typ
open Dmr.Parser (Lost LostIn lost_kept calm lost_dmr_error)

/-- The state in the content of a variable. -/
def variableState (constructor : Bool) : ParseState := if constructor then .inside_constructor else .inside_simple_type

/-- Where the parser is behind what is in a variable. -/
def InVariable (S : List ParseState) (B : List BaseType) (G : List Place) (A : List Table) (p : Parser)
    (found : BaseType × Kept) : Prop :=
  found.2.root_ns = DMR.c_dap40_namespace ∧ ∃ m, p = calm found.2 S (found.1 :: B) G A m

theorem not_isNone {α : Type} {a : α} : ¬(some a).isNone = true := Bool.false_ne_true

theorem made_array (b : BaseType) (dmr : DMR) :
    ∃ id name decl proto dmr', BaseType.make_array b dmr = (.array id name decl proto, dmr') := by
  cases b with
  | simple => exact ⟨_, _, _, _, _, rfl⟩
  | array => exact ⟨_, _, _, _, _, rfl⟩
  | constructor => exact ⟨_, _, _, _, _, rfl⟩

section

variable {k : Kept} {state : ParseState} {S : List ParseState} {b : BaseType} {B : List BaseType} {group : Place}
  {G : List Place} {A : List Table} {m : XMLAttrMap} {URI : Option String}
  {attributes : List (String × XMLAttribute)} {constructor : Bool} {localname : String}

theorem variableState_takes (constructor : Bool) : (variableState constructor).takesAttributes = true := by
  cases constructor <;> rfl

theorem variableState_passive (constructor : Bool) : (variableState constructor).passive := by
  cases constructor <;> decide

/-- An element in a variable, that is no variable itself. -/
theorem start_in_variable_of {p : Parser} (stack : p.s = variableState constructor :: S) (inside : dap4 URI)
    (other : constructor = true → Parser.variable_state (get_type localname) = none) (nsPrefix : Option String)
    (namespaces : List (String × String)) (attributes : List (String × XMLAttribute)) :
    ∃ expected, p.handle (.startElement localname nsPrefix URI namespaces attributes) =
      p.start_in_variable expected localname attributes := by
  have started : p.handle (.startElement localname nsPrefix URI namespaces attributes) =
      p.dmr_start_element localname nsPrefix URI namespaces attributes := rfl
  rw [started]
  unfold Parser.dmr_start_element
  rw [outside_dap4 stack inside]
  cases constructor with
  | false => exact ⟨_, rfl⟩
  | true =>
      change ∃ expected, (p.process_variable localname attributes >>= fun r => _) = _
      rw [Parser.process_variable_other (other rfl)]
      exact ⟨_, rfl⟩

theorem array_on_top_of {id : Nat} {name : Name} {decl : Nat} {proto : BaseType} {dmr : DMR}
    (made : BaseType.make_array b k.dmr = (.array id name decl proto, dmr)) :
    (calm k S (b :: B) G A m).array_on_top =
      .ok (name, decl, calm { k with dmr } S (.array id name decl proto :: B) G A m) := by
  unfold Parser.array_on_top
  dsimp only [Parser.top, calm, pure, Except.pure, bind, Except.bind]
  rw [made]

/-- The parser finds the dimension that the descent finds. -/
theorem process_dimension_of (group : Place) {size? name? : Option Name}
    (sized : (XMLAttrMap.ofAttributes attributes).value? "size" = size?)
    (named : (XMLAttrMap.ofAttributes attributes).value? "name" = name?) (one : size?.isSome ≠ name?.isSome)
    {id : Nat} {name : Name} {decl : Nat} {proto : BaseType} {dmr : DMR}
    (made : BaseType.make_array b k.dmr = (.array id name decl proto, dmr)) :
    (calm k S (b :: B) (group :: G) A m).process_dimension "Dim" attributes =
      (Parser.dimension (pure group) (.ofAttributes attributes) name dmr >>= fun d => .ok (true,
        calm { k with dmr := dmr.modifyArray decl (Array.append_dim d) } S (.array id name decl proto :: B) (group :: G) A
          (.ofAttributes attributes))) := by
  have has_size : ((calm k S (b :: B) (group :: G) A m).transfer_xml_attrs attributes).check_attribute "size" =
      size?.isSome := congrArg Option.isSome sized
  have has_name : ((calm k S (b :: B) (group :: G) A m).transfer_xml_attrs attributes).check_attribute "name" =
      name?.isSome := congrArg Option.isSome named
  have top : ((calm k S (b :: B) (group :: G) A m).transfer_xml_attrs attributes).array_on_top =
      .ok (name, decl, calm { k with dmr } S (.array id name decl proto :: B) (group :: G) A (.ofAttributes attributes)) :=
    array_on_top_of made
  unfold Parser.process_dimension
  split
  · rename_i other
    exact absurd other (by decide)
  dsimp only
  rw [has_size, has_name]
  have both : ¬(size?.isSome && name?.isSome) = true := by
    revert one
    cases size?.isSome <;> cases name?.isSome <;> decide
  have either : ¬(!(size?.isSome || name?.isSome)) = true := by
    revert one
    cases size?.isSome <;> cases name?.isSome <;> decide
  rw [if_neg both, if_neg either, top]
  rfl

theorem process_dimension_lost {size? name? : Option Name}
    (sized : (XMLAttrMap.ofAttributes attributes).value? "size" = size?)
    (named : (XMLAttrMap.ofAttributes attributes).value? "name" = name?) (one : size?.isSome = name?.isSome) {p : Parser} :
    ∃ q, p.process_dimension "Dim" attributes = .ok (false, q) := by
  have has_size : (p.transfer_xml_attrs attributes).check_attribute "size" = size?.isSome := congrArg Option.isSome sized
  have has_name : (p.transfer_xml_attrs attributes).check_attribute "name" = name?.isSome := congrArg Option.isSome named
  unfold Parser.process_dimension
  split
  · exact ⟨_, rfl⟩
  dsimp only
  rw [has_size, has_name, one]
  cases name?.isSome <;> exact ⟨_, rfl⟩

theorem start_in_variable_dim {p q : Parser} {expected : String} {taken : Bool}
    (processed : p.process_dimension "Dim" attributes = .ok (taken, q)) :
    p.start_in_variable expected "Dim" attributes =
      .ok (if taken then q.push_state .inside_dim else q.unexpected expected "Dim") := by
  unfold Parser.start_in_variable
  rw [Parser.process_attribute_other (by decide)]
  change (p.process_dimension "Dim" attributes >>= fun r => _) = _
  rw [processed]
  cases taken with
  | true => rfl
  | false =>
      change (q.process_map "Dim" attributes >>= fun r => _) = _
      rw [Parser.process_map_other (by decide)]
      rfl

/-- A `Dim` in a variable, up to its content. -/
theorem dim_follows (inside : dap4 URI) (nsPrefix : Option String) (namespaces : List (String × String)) :
    FollowsDmr (dim_element group (.ofAttributes attributes) b k.dmr)
      [.startElement "Dim" nsPrefix URI namespaces attributes]
      (calm k (variableState constructor :: S) (b :: B) (group :: G) A m) fun p' found =>
        p' = calm { k with dmr := found.2 } (.inside_dim :: variableState constructor :: S) (found.1 :: B) (group :: G) A
          (.ofAttributes attributes) := by
  obtain ⟨expected, started⟩ := start_in_variable_of (p := calm k (variableState constructor :: S) (b :: B) (group :: G) A m)
    rfl inside (fun _ => (by decide : Parser.variable_state (get_type "Dim") = none)) nsPrefix namespaces attributes
  unfold dim_element
  split
  · rename_i one
    obtain ⟨q, processed⟩ := process_dimension_lost rfl rfl one
      (p := calm k (variableState constructor :: S) (b :: B) (group :: G) A m)
    refine .halted lost_kept ?_
    rw [started, start_in_variable_dim processed]
    exact LostIn.pure (Parser.lost_unexpected _ _ _)
  · rename_i one
    obtain ⟨id, name, decl, proto, dmr, made⟩ := made_array b k.dmr
    rw [made]
    dsimp only
    have processed := process_dimension_of (S := variableState constructor :: S) (B := B) (G := G) (A := A) (m := m) group
      rfl rfl one made
    cases found : Parser.dimension (pure group) (.ofAttributes attributes) name dmr with
    | ok d =>
        rw [found] at processed
        exact .cons (started.trans (start_in_variable_dim processed)) (.nil rfl)
    | error e =>
        rw [found] at processed
        refine .stopped (e := e) ?_
        rw [started]
        unfold Parser.start_in_variable
        rw [Parser.process_attribute_other (by decide)]
        change (Parser.process_dimension "Dim" attributes _ >>= fun r => _) = _
        rw [processed]
        rfl

theorem process_map_of (group : Place) {map : Name} (named : (XMLAttrMap.ofAttributes attributes).value? "name" = some map) {id : Nat}
    {name : Name} {decl : Nat} {proto : BaseType} {dmr : DMR}
    (made : BaseType.make_array b k.dmr = (.array id name decl proto, dmr)) :
    (calm k S (b :: B) (group :: G) A m).process_map "Map" attributes =
      (Parser.d4map (pure group) k.d_strict (.ofAttributes attributes) name dmr >>= fun found => .ok (true,
        calm { k with dmr := dmr.modifyArray decl (Array.add_map found) } S (.array id name decl proto :: B) (group :: G) A
          (.ofAttributes attributes))) := by
  have has_name : ((calm k S (b :: B) (group :: G) A m).transfer_xml_attrs attributes).check_attribute "name" = true :=
    congrArg Option.isSome named
  have top : ((calm k S (b :: B) (group :: G) A m).transfer_xml_attrs attributes).array_on_top =
      .ok (name, decl, calm { k with dmr } S (.array id name decl proto :: B) (group :: G) A (.ofAttributes attributes)) :=
    array_on_top_of made
  unfold Parser.process_map
  split
  · rename_i other
    exact absurd other (by decide)
  dsimp only
  rw [has_name, if_neg (by decide), top]
  rfl

theorem process_map_lost (unnamed : (XMLAttrMap.ofAttributes attributes).value? "name" = none) {p : Parser} :
    ∃ q, p.process_map "Map" attributes = .ok (false, q) := by
  have has_name : (p.transfer_xml_attrs attributes).check_attribute "name" = false := congrArg Option.isSome unnamed
  unfold Parser.process_map
  split
  · exact ⟨_, rfl⟩
  dsimp only
  rw [has_name]
  exact ⟨_, rfl⟩

theorem start_in_variable_map (p : Parser) (expected : String) :
    p.start_in_variable expected "Map" attributes = (p.process_map "Map" attributes >>= fun r =>
      .ok (if r.1 then r.2.push_state .inside_map else r.2.unexpected expected "Map")) := by
  unfold Parser.start_in_variable
  rw [Parser.process_attribute_other (by decide)]
  change (p.process_dimension "Map" attributes >>= fun r => _) = _
  rw [Parser.process_dimension_other (by decide)]
  change (p.process_map "Map" attributes >>= fun r => _) = _
  cases processed : p.process_map "Map" attributes with
  | error e => rfl
  | ok found =>
      obtain ⟨taken, q⟩ := found
      cases taken <;> rfl

/-- A `Map` in a variable, up to its content. -/
theorem map_follows (inside : dap4 URI) (nsPrefix : Option String) (namespaces : List (String × String)) :
    FollowsDmr (map_element group k.d_strict (.ofAttributes attributes) b k.dmr)
      [.startElement "Map" nsPrefix URI namespaces attributes]
      (calm k (variableState constructor :: S) (b :: B) (group :: G) A m) fun p' found =>
        p' = calm { k with dmr := found.2 } (.inside_map :: variableState constructor :: S) (found.1 :: B) (group :: G) A
          (.ofAttributes attributes) := by
  obtain ⟨expected, started⟩ := start_in_variable_of (p := calm k (variableState constructor :: S) (b :: B) (group :: G) A m)
    rfl inside (fun _ => (by decide : Parser.variable_state (get_type "Map") = none)) nsPrefix namespaces attributes
  have started := started.trans (start_in_variable_map _ expected)
  unfold map_element
  cases named : (XMLAttrMap.ofAttributes attributes).value? "name" with
  | none =>
      obtain ⟨q, processed⟩ := process_map_lost named
        (p := calm k (variableState constructor :: S) (b :: B) (group :: G) A m)
      refine .halted lost_kept ?_
      rw [started, processed]
      exact LostIn.pure (Parser.lost_unexpected _ _ _)
  | some map =>
      obtain ⟨id, name, decl, proto, dmr, made⟩ := made_array b k.dmr
      rw [if_neg not_isNone, made]
      dsimp only
      have processed := process_map_of (S := variableState constructor :: S) (B := B) (G := G) (A := A) (m := m) group named made
      cases looked : Parser.d4map (pure group) k.d_strict (.ofAttributes attributes) name dmr with
      | ok found =>
          rw [looked] at processed
          rw [processed] at started
          exact .cons started (.nil rfl)
      | error e =>
          rw [looked] at processed
          rw [processed] at started
          exact .stopped started

end

section

variable {p : Parser} {k : Kept} {state : ParseState} {S : List ParseState} {B : List BaseType} {group : Place}
  {G : List Place} {A : List Table} {m : XMLAttrMap} {URI : Option String}
  {attributes : List (String × XMLAttribute)} {localname : String}

/-- A variable has a name of its own. -/
theorem ne_of_variable {t : String} (found : Parser.variable_state (get_type localname) = some state)
    (other : Parser.variable_state (get_type t) = none) : localname ≠ t := by
  rintro rfl
  rw [other] at found
  cases found

theorem process_variable_of (found : Parser.variable_state (get_type localname) = some state) :
    p.process_variable localname attributes =
      (p.process_variable_helper (get_type localname) state attributes >>= fun q => .ok (true, q)) := by
  unfold Parser.process_variable
  rw [found]
  rfl

/-- A variable in a group or in a constructor is for `process_variable_helper`. -/
theorem start_variable {outer : ParseState} (stack : p.s = outer :: S) (inside : dap4 URI)
    (takes : outer = .inside_dataset ∨ outer = .inside_group ∨ outer = .inside_constructor)
    (found : Parser.variable_state (get_type localname) = some state) (nsPrefix : Option String)
    (namespaces : List (String × String)) (attributes : List (String × XMLAttribute)) :
    p.handle (.startElement localname nsPrefix URI namespaces attributes) =
      p.process_variable_helper (get_type localname) state attributes := by
  have started : p.handle (.startElement localname nsPrefix URI namespaces attributes) =
      p.dmr_start_element localname nsPrefix URI namespaces attributes := rfl
  rw [started]
  unfold Parser.dmr_start_element
  rw [outside_dap4 stack inside]
  have in_group : p.start_in_group localname attributes =
      p.process_variable_helper (get_type localname) state attributes := by
    unfold Parser.start_in_group
    rw [Parser.process_enum_def_other (ne_of_variable found (by decide))]
    dsimp only
    rw [Parser.process_dimension_def_other (ne_of_variable found (by decide))]
    dsimp only
    rw [Parser.process_group_other (ne_of_variable found (by decide))]
    change (p.process_variable localname attributes >>= fun r => _) = _
    rw [process_variable_of found]
    cases p.process_variable_helper (get_type localname) state attributes <;> rfl
  obtain rfl | rfl | rfl := takes
  · exact in_group
  · exact in_group
  · change (p.process_variable localname attributes >>= fun r => _) = _
    rw [process_variable_of found]
    cases p.process_variable_helper (get_type localname) state attributes <;> rfl

/-- The parser finds the enumeration that the descent finds. -/
theorem set_enumeration_of {t : Typ} {id : Nat} {dmr : DMR}
    (found : enum_variable group t id (.ofAttributes attributes) k.dmr = .ok dmr) :
    (calm k S B (group :: G) A (.ofAttributes attributes)).set_enumeration t id =
      .ok (calm { k with dmr } S B (group :: G) A (.ofAttributes attributes)) := by
  unfold Parser.set_enumeration
  unfold enum_variable at found
  by_cases isEnum : t = dods_enum_c
  · rw [if_pos isEnum] at found ⊢
    cases there : (XMLAttrMap.ofAttributes attributes).value? "enum" with
    | none =>
        rw [there] at found
        cases found
    | some path =>
        rw [there, if_neg not_isNone] at found
        have checked : (calm k S B (group :: G) A (.ofAttributes attributes)).check_required_attribute "enum" =
            (true, calm k S B (group :: G) A (.ofAttributes attributes)) := by
          unfold Parser.check_required_attribute
          exact if_pos (congrArg Option.isSome there)
        rw [checked]
        change (Parser.enumeration (pure group) (.ofAttributes attributes) k.dmr >>= fun e => _) = _
        cases looked : Parser.enumeration (pure group) (.ofAttributes attributes) k.dmr with
        | error e =>
            rw [looked] at found
            cases found
        | ok enum_def =>
            rw [looked] at found
            cases found
            rfl
  · rw [if_neg isEnum] at found ⊢
    cases found
    rfl

theorem set_enumeration_lost {t : Typ} {id : Nat} {halt : Halt}
    (found : enum_variable group t id (.ofAttributes attributes) k.dmr = .error halt) :
    halt = .failed ∧ LostIn ((calm k S B (group :: G) A (.ofAttributes attributes)).set_enumeration t id) := by
  unfold Parser.set_enumeration
  unfold enum_variable at found
  by_cases isEnum : t = dods_enum_c
  · rw [if_pos isEnum] at found ⊢
    cases there : (XMLAttrMap.ofAttributes attributes).value? "enum" with
    | none =>
        rw [there] at found
        cases found
        have checked : (calm k S B (group :: G) A (.ofAttributes attributes)).check_required_attribute "enum" =
            (false, (calm k S B (group :: G) A (.ofAttributes attributes)).dmr_error
              ("Required attribute '".toList ++ "enum".toList ++ "' not found.".toList)) := by
          unfold Parser.check_required_attribute
          apply if_neg
          intro present
          have absent : (calm k S B (group :: G) A (.ofAttributes attributes)).check_attribute "enum" = false :=
            congrArg Option.isSome there
          rw [absent] at present
          cases present
        rw [checked]
        exact ⟨rfl, LostIn.pure (lost_dmr_error _ _)⟩
    | some path =>
        rw [there, if_neg not_isNone] at found
        have checked : (calm k S B (group :: G) A (.ofAttributes attributes)).check_required_attribute "enum" =
            (true, calm k S B (group :: G) A (.ofAttributes attributes)) := by
          unfold Parser.check_required_attribute
          exact if_pos (congrArg Option.isSome there)
        rw [checked]
        change halt = .failed ∧ LostIn (Parser.enumeration (pure group) (.ofAttributes attributes) k.dmr >>= fun e => _)
        cases looked : Parser.enumeration (pure group) (.ofAttributes attributes) k.dmr with
        | error e =>
            rw [looked] at found
            cases found
            exact ⟨rfl, LostIn.error e⟩
        | ok enum_def =>
            rw [looked] at found
            cases found
  · rw [if_neg isEnum] at found
    cases found

/-- A variable, up to its end. -/
theorem variable_element_follows {t : Typ} {content : List Xml} {start : Event}
    (started : (calm k S B (group :: G) A m).handle start =
      (calm k S B (group :: G) A m).process_variable_helper t state attributes)
    (root : k.root_ns = DMR.c_dap40_namespace) (inner : state.isOuter = false)
    (inside : ∀ btp table k' m', k'.root_ns = DMR.c_dap40_namespace →
      FollowsDmr (members group (!is_simple_type t) table content btp k') (eventsIn content)
        (calm k' (state :: S) (btp :: B) (group :: G) (table :: A) m')
        (InVariable (state :: S) B (group :: G) (table :: A))) :
    FollowsDmr (variable_element group t attributes content k) (start :: eventsIn content)
      (calm k S B (group :: G) A m) fun p' found => ∃ table, InVariable (state :: S) B (group :: G) (table :: A) p' found := by
  rw [variable_element]
  dsimp only
  unfold Parser.process_variable_helper at started
  cases named : (XMLAttrMap.ofAttributes attributes).value? "name" with
  | none =>
      have checked : ((calm k S B (group :: G) A m).transfer_xml_attrs attributes).check_attribute "name" = false :=
        congrArg Option.isSome named
      unfold Parser.check_required_attribute at started
      rw [checked, if_neg Bool.false_ne_true] at started
      refine .halted lost_kept ?_
      rw [started]
      exact LostIn.pure (lost_dmr_error _ _)
  | some name =>
      have checked : ((calm k S B (group :: G) A m).transfer_xml_attrs attributes).check_attribute "name" = true :=
        congrArg Option.isSome named
      have name_is : ((calm k S B (group :: G) A m).transfer_xml_attrs attributes).value "name" = name := by
        change ((XMLAttrMap.ofAttributes attributes).value? "name").getD [] = name
        rw [named]
        rfl
      unfold Parser.check_required_attribute at started
      rw [checked, if_pos rfl] at started
      dsimp only at started
      rw [name_is] at started
      change _ = ((calm { k with dmr := (k.dmr.NewVariable t name).2 } S B (group :: G) A
        (.ofAttributes attributes)).set_enumeration t (k.dmr.NewVariable t name).1.id >>= fun p => _) at started
      dsimp only
      cases found : enum_variable group t (k.dmr.NewVariable t name).1.id (.ofAttributes attributes)
          (k.dmr.NewVariable t name).2 with
      | error halt =>
          obtain ⟨rfl, lost⟩ := set_enumeration_lost
            (k := { k with dmr := (k.dmr.NewVariable t name).2 }) (S := S) (B := B) (G := G) (A := A) found
          refine .halted lost_kept ?_
          rw [started]
          refine LostIn.bind fun q made => LostIn.pure ?_
          exact ((lost q made).push inner).of_states rfl
      | ok dmr =>
          have set := set_enumeration_of
            (k := { k with dmr := (k.dmr.NewVariable t name).2 }) (S := S) (B := B) (G := G) (A := A) found
          rw [set] at started
          refine .cons started ?_
          exact (inside _ _ _ _ (by exact root)).mono fun p' found here => ⟨_, here⟩

end

theorem ite_ne {c : Prop} [Decidable c] {a b t : Typ} (one : a ≠ t) (two : b ≠ t) : (if c then a else b) ≠ t := by
  split
  · exact one
  · exact two

theorem name_of_structure {name : String} (found : get_type name = dods_structure_c) : name = "Structure" := by
  by_contra other
  revert found
  unfold get_type
  rw [if_neg other]
  -- all the names in front of it and behind it
  iterate 19 apply ite_ne (by decide)
  decide

theorem name_of_sequence {name : String} (found : get_type name = dods_sequence_c) : name = "Sequence" := by
  by_contra other
  revert found
  unfold get_type
  rw [if_neg other]
  iterate 19 apply ite_ne (by decide)
  decide

section

variable {k : Kept} {state : ParseState} {S : List ParseState} {B : List BaseType} {group : Place}
  {G : List Place} {A : List Table} {m : XMLAttrMap} {t : Table} {localname : String} {v : BaseType}

/-- The state in a variable tells what its end tag does. -/
theorem state_of_variable {t : Typ} (found : Parser.variable_state t = some state) :
    state = variableState (!is_simple_type t) ∧ (is_simple_type t = true ∨ t = dods_structure_c ∨ t = dods_sequence_c) := by
  unfold Parser.variable_state at found
  by_cases simple : is_simple_type t = true
  · rw [if_pos simple] at found
    cases found
    rw [simple]
    exact ⟨rfl, .inl rfl⟩
  · rw [if_neg simple] at found
    split at found
    · rename_i names
      cases found
      rw [Bool.not_eq_true] at simple
      rw [simple]
      exact ⟨rfl, .inr names⟩
    · cases found

theorem end_variable (found : Parser.variable_state (get_type localname) = some state) (p : Parser) (nsPrefix URI : Option String)
    (stack : p.s = state :: S) :
    p.handle (.endElement localname nsPrefix URI) =
      (p.close_variable (add_member (get_type localname)) localname >>= fun q => q.pop_state) := by
  obtain ⟨rfl, names⟩ := state_of_variable found
  have ended : p.handle (.endElement localname nsPrefix URI) = p.dmr_end_element localname nsPrefix URI := rfl
  rw [ended]
  unfold Parser.dmr_end_element add_member
  rw [stack]
  by_cases simple : is_simple_type (get_type localname) = true
  · have inside : variableState (!is_simple_type (get_type localname)) = .inside_simple_type := by
      rw [simple]
      rfl
    rw [if_pos simple, inside]
    dsimp only [Parser.top, pure, Except.pure, bind, Except.bind]
    rw [if_pos simple]
  · have named : ¬(localname ≠ "Structure" ∧ localname ≠ "Sequence") := by
      obtain here | here | here := names
      · exact absurd here simple
      · exact fun both => both.1 (name_of_structure here)
      · exact fun both => both.2 (name_of_sequence here)
    have inside : variableState (!is_simple_type (get_type localname)) = .inside_constructor := by
      rw [Bool.not_eq_true] at simple
      rw [simple]
      rfl
    rw [inside]
    dsimp only [Parser.top, pure, Except.pure, bind, Except.bind]
    rw [if_neg named, if_neg simple]

theorem end_variable_in_group (found : Parser.variable_state (get_type localname) = some state)
    (nsPrefix URI : Option String) :
    (calm k (state :: S) [v] (group :: G) (t :: A) m).handle (.endElement localname nsPrefix URI) =
      .ok (calm { k with dmr := k.dmr.add_group_var group v } S [] (group :: G) A m) := by
  rw [end_variable found _ nsPrefix URI rfl]
  rfl

theorem end_variable_in_variable (group : Place) (parent : BaseType) (found : Parser.variable_state (get_type localname) = some state)
    (nsPrefix URI : Option String) :
    (calm k (state :: S) (v :: parent :: B) (group :: G) (t :: A) m).handle (.endElement localname nsPrefix URI) =
      (add_member (get_type localname) v k.dmr parent >>= fun found =>
        .ok (calm { k with dmr := found.2 } S (found.1 :: B) (group :: G) A m)) := by
  rw [end_variable found _ nsPrefix URI rfl]
  unfold Parser.close_variable
  change ((add_member (get_type localname) v k.dmr parent >>= fun found => _) >>= fun q => _) = _
  cases add_member (get_type localname) v k.dmr parent <;> rfl

theorem end_dim (k : Kept) (m : XMLAttrMap) (nsPrefix URI : Option String) :
    (calm k (.inside_dim :: S) B G A m).handle (.endElement "Dim" nsPrefix URI) = .ok (calm k S B G A m) := rfl

theorem end_map (k : Kept) (m : XMLAttrMap) (nsPrefix URI : Option String) :
    (calm k (.inside_map :: S) B G A m).handle (.endElement "Map" nsPrefix URI) = .ok (calm k S B G A m) := rfl

theorem lost_in_variable {p : Parser} {constructor : Bool} {URI : Option String} (stack : p.s = variableState constructor :: S)
    (inside : dap4 URI)
    (variable_ : constructor = true → Parser.variable_state (get_type localname) = none) (attr : localname ≠ "Attribute")
    (dim : localname ≠ "Dim") (map : localname ≠ "Map") (nsPrefix : Option String) (namespaces : List (String × String))
    (attributes : List (String × XMLAttribute)) :
    LostIn (p.handle (.startElement localname nsPrefix URI namespaces attributes)) := by
  obtain ⟨expected, started⟩ := start_in_variable_of stack inside variable_ nsPrefix namespaces attributes
  rw [started]
  unfold Parser.start_in_variable
  rw [Parser.process_attribute_other attr]
  change LostIn (p.process_dimension localname attributes >>= fun r => _)
  rw [Parser.process_dimension_other dim]
  change LostIn (p.process_map localname attributes >>= fun r => _)
  rw [Parser.process_map_other map]
  exact LostIn.pure (Parser.lost_unexpected _ _ _)

end

/-- What is in a variable. -/
theorem members_follows (constructor : Bool) (xs : List Xml) (S : List ParseState) (B : List BaseType) (group : Place)
    (G : List Place) (A : List Table) (t : Table) (b : BaseType) (k : Kept) (m : XMLAttrMap)
    (root : k.root_ns = DMR.c_dap40_namespace) :
    FollowsDmr (members group constructor t xs b k) (eventsIn xs)
      (calm k (variableState constructor :: S) (b :: B) (group :: G) (t :: A) m)
      (InVariable (variableState constructor :: S) B (group :: G) (t :: A)) := by
  cases xs with
  | nil =>
      rw [members]
      exact .nil ⟨root, m, rfl⟩
  | cons x xs =>
      rw [eventsIn]
      have passive := variableState_passive constructor
      cases x with
      | characters ch =>
          simp only [members]
          exact passed _ rfl passive (members_follows constructor xs S B group G A t b k m root)
      | ignorableWhitespace ch =>
          simp only [members]
          exact passed _ rfl passive (members_follows constructor xs S B group G A t b k m root)
      | cdataBlock value =>
          simp only [members]
          exact passed _ rfl passive (members_follows constructor xs S B group G A t b k m root)
      | element localname nsPrefix URI namespaces attributes content =>
          rw [members]
          by_cases inside : dap4 URI
          · rw [if_pos inside]
            by_cases variable_ : constructor = true ∧ (Parser.variable_state (get_type localname)).isSome = true
            · rw [if_pos variable_]
              obtain ⟨rfl, some_⟩ := variable_
              obtain ⟨state, found⟩ := Option.isSome_iff_exists.mp some_
              obtain ⟨rfl, -⟩ := state_of_variable found
              have started := start_variable (p := calm k (variableState true :: S) (b :: B) (group :: G) (t :: A) m)
                rfl inside (.inr (.inr rfl)) found nsPrefix namespaces attributes
              have follows := variable_element_follows started root
                (by cases is_simple_type (get_type localname) <;> rfl) fun btp table k' m' root' =>
                members_follows _ content (variableState true :: S) (b :: B) group G (t :: A) table btp k' m' root'
              rw [Xml.events, ← List.cons_append, List.append_assoc]
              refine follows.bind lost_kept ?_
              rintro p' ⟨v, k'⟩ ⟨table, root', m', rfl⟩
              have ended := end_variable_in_variable (k := k') (S := variableState true :: S) (B := B) (G := G)
                (A := t :: A) (m := m') (t := table) (v := v) group b found nsPrefix URI
              cases added : add_member (get_type localname) v k'.dmr b with
              | error e =>
                  rw [added] at ended
                  dsimp only
                  rw [added]
                  exact .stopped ended
              | ok more =>
                  rw [added] at ended
                  dsimp only
                  rw [added]
                  exact .cons ended (members_follows true xs S B group G A t more.1 _ m' (by exact root'))
            · rw [if_neg variable_]
              by_cases attr : localname = "Attribute"
              · rw [if_pos attr]
                subst attr
                refine (attribute_element_follows (variableState_takes constructor) inside root
                  (fun child k' m' root' => container_follows content _ _ child k' m' root')
                  (fun k' m' root' => values_follows content _ _ t k' m' root')).bind lost_kept ?_
                rintro p' k' ⟨root', m', rfl⟩
                exact members_follows constructor xs S B group G A t b k' m' root'
              · rw [if_neg attr]
                by_cases dim : localname = "Dim"
                · rw [if_pos dim]
                  subst dim
                  rw [Xml.events, List.cons_append, List.append_assoc]
                  refine (dim_follows inside nsPrefix namespaces).bind lost_kept ?_
                  rintro p' ⟨b', dmr⟩ rfl
                  exact passed_content rfl (by decide) (end_dim _ _ nsPrefix URI)
                    (members_follows constructor xs S B group G A t b' _ _ (by exact root))
                · rw [if_neg dim]
                  by_cases map : localname = "Map"
                  · rw [if_pos map]
                    subst map
                    rw [Xml.events, List.cons_append, List.append_assoc]
                    refine (map_follows inside nsPrefix namespaces).bind lost_kept ?_
                    rintro p' ⟨b', dmr⟩ rfl
                    exact passed_content rfl (by decide) (end_map _ _ nsPrefix URI)
                      (members_follows constructor xs S B group G A t b' _ _ (by exact root))
                  · rw [if_neg map]
                    have other : constructor = true → Parser.variable_state (get_type localname) = none := by
                      intro isConstructor
                      rw [← Option.not_isSome_iff_eq_none]
                      exact fun some_ => variable_ ⟨isConstructor, some_⟩
                    exact .halted lost_kept
                      (lost_in_variable rfl inside other attr dim map nsPrefix namespaces attributes)
          · rw [if_neg inside]
            exact passed_element rfl passive.1 inside (members_follows constructor xs S B group G A t b k m root)

end Libdap.Dap4.Dmr
