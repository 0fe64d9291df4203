import Libdap.Dap4.DmrVariables

/-! # Documents that are interned

The content of groups, and the document as a whole: what the parser makes of its events is the
DMR that the document describes.
-/

namespace Libdap.Dap4.Dmr

open Typ
open Dmr.Parser (Lost LostIn lost_kept calm lost_dmr_error)

/-! ## Enumerations and dimensions -/

/-- A parser in an `Enumeration`. -/
def inEnum (k : Kept) (S : List ParseState) (B : List BaseType) (G : List Place) (A : List Table) (m : XMLAttrMap)
    (e : EnumDef) : Parser :=
  { calm k (.inside_enum_def :: S) B G A m with d_enum_def := some e }

/-- A parser in a `Dimension`. -/
def inDimension (k : Kept) (S : List ParseState) (B : List BaseType) (G : List Place) (A : List Table) (m : XMLAttrMap)
    (name : Name) (size : Nat) : Parser :=
  { calm k (.inside_dim_def :: S) B G A m with d_dim_def := some (name, size) }

section

variable {p : Parser} {k : Kept} {S : List ParseState} {B : List BaseType} {group : Place} {G : List Place}
  {A : List Table} {m : XMLAttrMap} {URI : Option String} {attributes : List (String × XMLAttribute)} {e : EnumDef}
  {content : List Xml}

theorem process_enum_const_found {name text : Name} {value : Int}
    (named : (XMLAttrMap.ofAttributes attributes).value? "name" = some name)
    (valued : (XMLAttrMap.ofAttributes attributes).value? "value" = some text)
    (read : Parser.enum_value text = some value) (valid : is_valid_enum_value e.d_type value = true) :
    (inEnum k S B G A m e).process_enum_const "EnumConst" attributes =
      (true, inEnum k S B G A (.ofAttributes attributes) { e with d_tuples := e.d_tuples ++ [(name, value)] }) := by
  unfold Parser.process_enum_const
  split
  · rename_i other
    exact absurd other (by decide)
  rw [Parser.check_both_found (check_of named) (check_of valued)]
  dsimp only
  rw [value_of valued, read]
  dsimp only
  rw [value_of named]
  change (if is_valid_enum_value e.d_type value = true then _ else _) = _
  rw [if_pos valid]
  rfl

theorem process_enum_const_lost
    (bad : ∀ name text value, (XMLAttrMap.ofAttributes attributes).value? "name" = some name →
      (XMLAttrMap.ofAttributes attributes).value? "value" = some text → Parser.enum_value text = some value →
        is_valid_enum_value e.d_type value = false) :
    Lost ((inEnum k S B G A m e).process_enum_const "EnumConst" attributes).2 := by
  unfold Parser.process_enum_const
  split
  · rename_i other
    exact absurd other (by decide)
  cases named : (XMLAttrMap.ofAttributes attributes).value? "name" with
  | none =>
      obtain ⟨q, checked⟩ := check_both_absent (p := inEnum k S B G A m e) (.inl named)
      rw [checked]
      exact lost_dmr_error _ _
  | some name =>
      cases valued : (XMLAttrMap.ofAttributes attributes).value? "value" with
      | none =>
          obtain ⟨q, checked⟩ := check_both_absent (p := inEnum k S B G A m e) (.inr valued)
          rw [checked]
          exact lost_dmr_error _ _
      | some text =>
          rw [Parser.check_both_found (check_of named) (check_of valued)]
          dsimp only
          rw [value_of valued]
          cases read : Parser.enum_value text with
          | none => exact lost_dmr_error _ _
          | some value =>
              dsimp only
              have wrong : ¬is_valid_enum_value e.d_type value = true := by
                rw [bad name text value named valued read]
                exact Bool.false_ne_true
              change Lost (if is_valid_enum_value e.d_type value = true then _ else _ : Bool × Parser).2
              rw [if_neg wrong]
              exact lost_dmr_error _ _

theorem start_in_enum (inside : dap4 URI) {localname : String} {taken : Bool} {q : Parser}
    (processed : (inEnum k S B G A m e).process_enum_const localname attributes = (taken, q)) (nsPrefix : Option String)
    (namespaces : List (String × String)) :
    (inEnum k S B G A m e).handle (.startElement localname nsPrefix URI namespaces attributes) =
      .ok (if taken then q.push_state .inside_enum_const else q.unexpected "an 'EnumConst' element" localname) := by
  have started : (inEnum k S B G A m e).handle (.startElement localname nsPrefix URI namespaces attributes) =
      (inEnum k S B G A m e).dmr_start_element localname nsPrefix URI namespaces attributes := rfl
  rw [started]
  unfold Parser.dmr_start_element
  rw [outside_dap4 rfl inside]
  dsimp only [pure, Except.pure, bind, Except.bind]
  rw [processed]
  cases taken <;> rfl

theorem lost_in_enum (inside : dap4 URI) {localname : String}
    (lost : Lost ((inEnum k S B G A m e).process_enum_const localname attributes).2) (nsPrefix : Option String)
    (namespaces : List (String × String)) :
    LostIn ((inEnum k S B G A m e).handle (.startElement localname nsPrefix URI namespaces attributes)) := by
  cases processed : (inEnum k S B G A m e).process_enum_const localname attributes with
  | mk taken q =>
      rw [processed] at lost
      rw [start_in_enum inside processed]
      cases taken with
      | true => exact LostIn.pure (lost.push rfl)
      | false => exact LostIn.pure (Parser.lost_unexpected _ _ _)

theorem end_enum_const (k : Kept) (m : XMLAttrMap) (e : EnumDef) (nsPrefix URI : Option String) :
    ((inEnum k S B G A m e).push_state .inside_enum_const).handle (.endElement "EnumConst" nsPrefix URI) =
      .ok (inEnum k S B G A m e) := rfl

theorem enum_consts_follows (xs : List Xml) (e : EnumDef) (m : XMLAttrMap) :
    FollowsDmr (enum_consts xs e) (eventsIn xs) (inEnum k S B G A m e) fun p' e' =>
      ∃ m', p' = inEnum k S B G A m' e' := by
  induction xs generalizing e m with
  | nil =>
      rw [enum_consts]
      exact .nil ⟨m, rfl⟩
  | cons x xs ih =>
      rw [eventsIn]
      cases x with
      | characters ch =>
          simp only [enum_consts]
          exact passed _ rfl (by decide) (ih e m)
      | ignorableWhitespace ch =>
          simp only [enum_consts]
          exact passed _ rfl (by decide) (ih e m)
      | cdataBlock value =>
          simp only [enum_consts]
          exact passed _ rfl (by decide) (ih e m)
      | element localname nsPrefix URI namespaces attributes content =>
          rw [enum_consts]
          by_cases inside : dap4 URI
          · rw [if_pos inside]
            by_cases const : localname = "EnumConst"
            · rw [if_pos const]
              subst const
              dsimp only
              cases named : (XMLAttrMap.ofAttributes attributes).value? "name" with
              | none =>
                  refine .halted lost_kept (lost_in_enum inside (process_enum_const_lost ?_) nsPrefix namespaces)
                  intro name text value found
                  rw [named] at found
                  cases found
              | some name =>
                  dsimp only
                  cases valued : (XMLAttrMap.ofAttributes attributes).value? "value" with
                  | none =>
                      refine .halted lost_kept (lost_in_enum inside (process_enum_const_lost ?_) nsPrefix namespaces)
                      intro name text value _ found
                      rw [valued] at found
                      cases found
                  | some text =>
                      rw [Option.bind_some]
                      cases read : Parser.enum_value text with
                      | none =>
                          refine .halted lost_kept (lost_in_enum inside (process_enum_const_lost ?_) nsPrefix namespaces)
                          intro name' text' value _ found read'
                          rw [valued] at found
                          cases found
                          rw [read] at read'
                          cases read'
                      | some value =>
                          dsimp only
                          by_cases valid : is_valid_enum_value e.d_type value = true
                          · rw [if_pos valid, Xml.events, List.cons_append, List.append_assoc]
                            refine .cons (start_in_enum inside (process_enum_const_found named valued read valid) nsPrefix
                              namespaces) ?_
                            exact passed_content rfl (by decide) (end_enum_const _ _ _ nsPrefix URI) (ih _ _)
                          · rw [if_neg valid]
                            refine .halted lost_kept (lost_in_enum inside (process_enum_const_lost ?_) nsPrefix namespaces)
                            intro name' text' value' _ found read'
                            rw [valued] at found
                            cases found
                            rw [read] at read'
                            cases read'
                            exact Bool.eq_false_iff.mpr valid
            · rw [if_neg const]
              have other : (inEnum k S B G A m e).process_enum_const localname attributes = (false, inEnum k S B G A m e) :=
                Parser.process_enum_const_other const
              refine .halted lost_kept ?_
              rw [start_in_enum inside other]
              exact LostIn.pure (Parser.lost_unexpected _ _ _)
          · rw [if_neg inside]
            exact passed_element rfl ParseState.noConfusion inside (ih e m)

end

/-! ## Groups -/

section

variable {p q : Parser} {k : Kept} {state : ParseState} {S : List ParseState} {B : List BaseType} {group : Place}
  {G : List Place} {A : List Table} {m : XMLAttrMap} {URI : Option String} {attributes : List (String × XMLAttribute)}
  {content : List Xml} {localname : String}

/-- A group takes what is in it with `start_in_group`. -/
theorem start_in_group_of (stack : p.s = state :: S) (takes : state = .inside_dataset ∨ state = .inside_group)
    (inside : dap4 URI) (nsPrefix : Option String) (namespaces : List (String × String)) (localname : String)
    (attributes : List (String × XMLAttribute)) :
    p.handle (.startElement localname nsPrefix URI namespaces attributes) = p.start_in_group localname attributes := by
  have started : p.handle (.startElement localname nsPrefix URI namespaces attributes) =
      p.dmr_start_element localname nsPrefix URI namespaces attributes := rfl
  rw [started]
  unfold Parser.dmr_start_element
  rw [outside_dap4 stack inside]
  obtain rfl | rfl := takes <;> rfl

theorem start_in_group_enum {taken : Bool} (processed : p.process_enum_def "Enumeration" attributes = (taken, q)) :
    p.start_in_group "Enumeration" attributes = .ok (if taken then q.push_state .inside_enum_def else
      q.unexpected "an Attribute, Enumeration, Dimension, Group or variable element" "Enumeration") := by
  unfold Parser.start_in_group
  rw [processed]
  cases taken with
  | true => rfl
  | false =>
      dsimp only
      rw [Parser.process_dimension_def_other (by decide)]
      dsimp only
      rw [Parser.process_group_other (by decide)]
      change (q.process_variable "Enumeration" attributes >>= fun r => _) = _
      rw [Parser.process_variable_other (by decide)]
      change (q.process_attribute "Enumeration" attributes >>= fun r => _) = _
      rw [Parser.process_attribute_other (by decide)]
      rfl

theorem start_in_group_dimension {taken : Bool} (processed : p.process_dimension_def "Dimension" attributes = (taken, q)) :
    p.start_in_group "Dimension" attributes = .ok (if taken then q.push_state .inside_dim_def else
      q.unexpected "an Attribute, Enumeration, Dimension, Group or variable element" "Dimension") := by
  unfold Parser.start_in_group
  rw [Parser.process_enum_def_other (by decide)]
  dsimp only
  rw [processed]
  cases taken with
  | true => rfl
  | false =>
      dsimp only
      rw [Parser.process_group_other (by decide)]
      change (q.process_variable "Dimension" attributes >>= fun r => _) = _
      rw [Parser.process_variable_other (by decide)]
      change (q.process_attribute "Dimension" attributes >>= fun r => _) = _
      rw [Parser.process_attribute_other (by decide)]
      rfl

theorem start_in_group_group {taken : Bool} (processed : p.process_group "Group" attributes = .ok (taken, q)) :
    p.start_in_group "Group" attributes = .ok (if taken then q.push_state .inside_group else
      q.unexpected "an Attribute, Enumeration, Dimension, Group or variable element" "Group") := by
  unfold Parser.start_in_group
  rw [Parser.process_enum_def_other (by decide)]
  dsimp only
  rw [Parser.process_dimension_def_other (by decide)]
  change (p.process_group "Group" attributes >>= fun r => _) = _
  rw [processed]
  cases taken with
  | true => rfl
  | false =>
      change (q.process_variable "Group" attributes >>= fun r => _) = _
      rw [Parser.process_variable_other (by decide)]
      change (q.process_attribute "Group" attributes >>= fun r => _) = _
      rw [Parser.process_attribute_other (by decide)]
      rfl

theorem lost_in_group (stack : p.s = state :: S) (takes : state = .inside_dataset ∨ state = .inside_group)
    (inside : dap4 URI) (enum : localname ≠ "Enumeration") (dim : localname ≠ "Dimension") (grp : localname ≠ "Group")
    (variable_ : Parser.variable_state (get_type localname) = none) (attr : localname ≠ "Attribute")
    (nsPrefix : Option String) (namespaces : List (String × String)) :
    LostIn (p.handle (.startElement localname nsPrefix URI namespaces attributes)) := by
  rw [start_in_group_of stack takes inside]
  unfold Parser.start_in_group
  rw [Parser.process_enum_def_other enum]
  dsimp only
  rw [Parser.process_dimension_def_other dim]
  change LostIn (p.process_group localname attributes >>= fun r => _)
  rw [Parser.process_group_other grp]
  change LostIn (p.process_variable localname attributes >>= fun r => _)
  rw [Parser.process_variable_other variable_]
  change LostIn (p.process_attribute localname attributes >>= fun r => _)
  rw [Parser.process_attribute_other attr]
  exact LostIn.pure (Parser.lost_unexpected _ _ _)

theorem process_enum_def_found {name basetype : Name}
    (named : (XMLAttrMap.ofAttributes attributes).value? "name" = some name)
    (based : (XMLAttrMap.ofAttributes attributes).value? "basetype" = some basetype)
    (integer : is_integer_type (get_type (String.ofList basetype)) = true) :
    Parser.process_enum_def "Enumeration" attributes (calm k S B G A m) =
      (true, { calm k S B G A (.ofAttributes attributes) with
        d_enum_def := some ⟨name, get_type (String.ofList basetype), [], none⟩ }) := by
  unfold Parser.process_enum_def
  split
  · rename_i other
    exact absurd other (by decide)
  rw [Parser.check_both_found (check_of named) (check_of based)]
  dsimp only
  rw [value_of based, if_pos integer, value_of named]
  rfl

theorem process_enum_def_lost
    (bad : ∀ name basetype, (XMLAttrMap.ofAttributes attributes).value? "name" = some name →
      (XMLAttrMap.ofAttributes attributes).value? "basetype" = some basetype →
        is_integer_type (get_type (String.ofList basetype)) = false) :
    ∃ q, p.process_enum_def "Enumeration" attributes = (false, q) := by
  unfold Parser.process_enum_def
  split
  · exact ⟨_, rfl⟩
  cases named : (XMLAttrMap.ofAttributes attributes).value? "name" with
  | none =>
      obtain ⟨q, checked⟩ := check_both_absent (p := p) (.inl named)
      rw [checked]
      exact ⟨_, rfl⟩
  | some name =>
      cases based : (XMLAttrMap.ofAttributes attributes).value? "basetype" with
      | none =>
          obtain ⟨q, checked⟩ := check_both_absent (p := p) (.inr based)
          rw [checked]
          exact ⟨_, rfl⟩
      | some basetype =>
          rw [Parser.check_both_found (check_of named) (check_of based)]
          dsimp only
          rw [value_of based, bad name basetype named based]
          exact ⟨_, rfl⟩

theorem process_dimension_def_found {name text : Name} {size : Nat}
    (named : (XMLAttrMap.ofAttributes attributes).value? "name" = some name)
    (sized : (XMLAttrMap.ofAttributes attributes).value? "size" = some text) (read : set_size text = some size) :
    Parser.process_dimension_def "Dimension" attributes (calm k S B G A m) =
      (true, { calm k S B G A (.ofAttributes attributes) with d_dim_def := some (name, size) }) := by
  unfold Parser.process_dimension_def
  split
  · rename_i other
    exact absurd other (by decide)
  rw [Parser.check_both_found (check_of named) (check_of sized)]
  dsimp only
  rw [value_of sized, read]
  dsimp only
  rw [value_of named]
  rfl

theorem process_dimension_def_lost
    (bad : ∀ name text, (XMLAttrMap.ofAttributes attributes).value? "name" = some name →
      (XMLAttrMap.ofAttributes attributes).value? "size" = some text → set_size text = none) :
    ∃ q, p.process_dimension_def "Dimension" attributes = (false, q) := by
  unfold Parser.process_dimension_def
  split
  · exact ⟨_, rfl⟩
  cases named : (XMLAttrMap.ofAttributes attributes).value? "name" with
  | none =>
      obtain ⟨q, checked⟩ := check_both_absent (p := p) (.inl named)
      rw [checked]
      exact ⟨_, rfl⟩
  | some name =>
      cases sized : (XMLAttrMap.ofAttributes attributes).value? "size" with
      | none =>
          obtain ⟨q, checked⟩ := check_both_absent (p := p) (.inr sized)
          rw [checked]
          exact ⟨_, rfl⟩
      | some text =>
          rw [Parser.check_both_found (check_of named) (check_of sized)]
          dsimp only
          rw [value_of sized, bad name text named sized]
          exact ⟨_, rfl⟩

theorem process_group_found {name : Name} (named : (XMLAttrMap.ofAttributes attributes).value? "name" = some name) :
    (calm k S B (group :: G) A m).process_group "Group" attributes =
      .ok (true, calm { k with dmr := ((k.dmr.add_group_nocopy group name).2.2.attributes (k.dmr.add_group_nocopy group name).1).2 }
        S B ((k.dmr.add_group_nocopy group name).2.1 :: group :: G)
        (⟨((k.dmr.add_group_nocopy group name).2.2.attributes (k.dmr.add_group_nocopy group name).1).1, []⟩ :: A)
        (.ofAttributes attributes)) := by
  unfold Parser.process_group
  split
  · rename_i other
    exact absurd other (by decide)
  unfold Parser.check_required_attribute
  rw [check_of named, if_pos Option.isSome_some]
  dsimp only
  rw [value_of named]
  rfl

theorem process_group_lost (unnamed : (XMLAttrMap.ofAttributes attributes).value? "name" = none) :
    ∃ q, p.process_group "Group" attributes = .ok (false, q) := by
  unfold Parser.process_group
  split
  · exact ⟨_, rfl⟩
  unfold Parser.check_required_attribute
  rw [check_of unnamed]
  exact ⟨_, rfl⟩

theorem end_enum (k : Kept) (e : EnumDef) (nsPrefix URI : Option String) :
    (inEnum k S B (group :: G) A m e).handle (.endElement "Enumeration" nsPrefix URI) =
      .ok (calm { k with dmr := k.dmr.add_enum_nocopy group e } S B (group :: G) A m) := rfl

theorem end_dimension (k : Kept) (name : Name) (size : Nat) (nsPrefix URI : Option String) :
    (inDimension k S B (group :: G) A m name size).handle (.endElement "Dimension" nsPrefix URI) =
      .ok (calm { k with dmr := k.dmr.add_dim_nocopy group name size } S B (group :: G) A m) := rfl

theorem end_group (k : Kept) (place : Place) (nsPrefix URI : Option String) :
    (calm k (.inside_group :: S) [] (place :: group :: G) A m).handle (.endElement "Group" nsPrefix URI) =
      .ok (calm k S [] (group :: G) A m) := rfl

/-- An `Enumeration` in a group. -/
theorem enum_element_follows (takes : state = .inside_dataset ∨ state = .inside_group) (inside : dap4 URI)
    (nsPrefix : Option String) (namespaces : List (String × String)) :
    FollowsDmr (enum_element group (.ofAttributes attributes) content k.dmr)
      (Xml.element "Enumeration" nsPrefix URI namespaces attributes content).events
      (calm k (state :: S) B (group :: G) A m) fun p' dmr =>
        ∃ m', p' = calm { k with dmr } (state :: S) B (group :: G) A m' := by
  have started := start_in_group_of (p := calm k (state :: S) B (group :: G) A m) rfl takes inside nsPrefix namespaces
    "Enumeration" attributes
  have halted : (∀ name basetype, (XMLAttrMap.ofAttributes attributes).value? "name" = some name →
      (XMLAttrMap.ofAttributes attributes).value? "basetype" = some basetype →
        is_integer_type (get_type (String.ofList basetype)) = false) →
      LostIn ((calm k (state :: S) B (group :: G) A m).handle
        (.startElement "Enumeration" nsPrefix URI namespaces attributes)) := by
    intro bad
    obtain ⟨q, processed⟩ := process_enum_def_lost bad (p := calm k (state :: S) B (group :: G) A m)
    rw [started, start_in_group_enum processed]
    exact LostIn.pure (Parser.lost_unexpected _ _ _)
  rw [Xml.events]
  unfold enum_element
  cases named : (XMLAttrMap.ofAttributes attributes).value? "name" with
  | none =>
      refine .halted lost_kept (halted fun name basetype found => ?_)
      rw [named] at found
      cases found
  | some name =>
      cases based : (XMLAttrMap.ofAttributes attributes).value? "basetype" with
      | none =>
          refine .halted lost_kept (halted fun name basetype _ found => ?_)
          rw [based] at found
          cases found
      | some basetype =>
          dsimp only
          by_cases integer : is_integer_type (get_type (String.ofList basetype)) = true
          · rw [if_pos integer]
            refine .cons (started.trans (start_in_group_enum (process_enum_def_found named based integer))) ?_
            refine (enum_consts_follows content _ _).bind lost_kept ?_
            rintro p' e ⟨m', rfl⟩
            exact .cons (end_enum _ _ nsPrefix URI) (.nil ⟨m', rfl⟩)
          · rw [if_neg integer]
            refine .halted lost_kept (halted fun name basetype' _ found => ?_)
            rw [based] at found
            cases found
            exact Bool.eq_false_iff.mpr integer

/-- A `Dimension` in a group. -/
theorem dimension_element_follows (takes : state = .inside_dataset ∨ state = .inside_group) (inside : dap4 URI)
    (nsPrefix : Option String) (namespaces : List (String × String)) :
    FollowsDmr (dimension_element group (.ofAttributes attributes) content k.dmr)
      (Xml.element "Dimension" nsPrefix URI namespaces attributes content).events
      (calm k (state :: S) B (group :: G) A m) fun p' dmr =>
        ∃ m', p' = calm { k with dmr } (state :: S) B (group :: G) A m' := by
  have started := start_in_group_of (p := calm k (state :: S) B (group :: G) A m) rfl takes inside nsPrefix namespaces
    "Dimension" attributes
  have halted : (∀ name text, (XMLAttrMap.ofAttributes attributes).value? "name" = some name →
      (XMLAttrMap.ofAttributes attributes).value? "size" = some text → set_size text = none) →
      LostIn ((calm k (state :: S) B (group :: G) A m).handle
        (.startElement "Dimension" nsPrefix URI namespaces attributes)) := by
    intro bad
    obtain ⟨q, processed⟩ := process_dimension_def_lost bad (p := calm k (state :: S) B (group :: G) A m)
    rw [started, start_in_group_dimension processed]
    exact LostIn.pure (Parser.lost_unexpected _ _ _)
  rw [Xml.events]
  unfold dimension_element
  cases named : (XMLAttrMap.ofAttributes attributes).value? "name" with
  | none =>
      refine .halted lost_kept (halted fun name text found => ?_)
      rw [named] at found
      cases found
  | some name =>
      cases sized : (XMLAttrMap.ofAttributes attributes).value? "size" with
      | none =>
          refine .halted lost_kept (halted fun name text _ found => ?_)
          rw [sized] at found
          cases found
      | some text =>
          rw [Option.bind_some]
          cases read : set_size text with
          | none =>
              refine .halted lost_kept (halted fun name text' _ found => ?_)
              rw [sized] at found
              cases found
              exact read
          | some size =>
              refine .cons (started.trans (start_in_group_dimension (process_dimension_def_found named sized read))) ?_
              refine (pass_all_follows content rfl (by decide : ParseState.inside_dim_def.passive)).bind lost_kept ?_
              rintro p' _ rfl
              exact .cons (end_dimension k name size nsPrefix URI) (.nil ⟨_, rfl⟩)

end

/-- Where the parser is behind what is in a group: the tables of the groups in it are still there. -/
def InGroup (S : List ParseState) (G : List Place) (p : Parser) (found : Table × Kept) : Prop :=
  found.2.root_ns = DMR.c_dap40_namespace ∧ ∃ A m, p = calm found.2 S [] G (found.1 :: A) m

/-- What is in a group. -/
theorem group_content_follows (xs : List Xml) (state : ParseState) (S : List ParseState) (group : Place) (G : List Place)
    (A : List Table) (t : Table) (k : Kept) (m : XMLAttrMap)
    (takes : state = .inside_dataset ∨ state = .inside_group) (root : k.root_ns = DMR.c_dap40_namespace) :
    FollowsDmr (group_content group xs t k) (eventsIn xs) (calm k (state :: S) [] (group :: G) (t :: A) m)
      (InGroup (state :: S) (group :: G)) := by
  have passive : state.passive := by obtain rfl | rfl := takes <;> decide
  have takesAttributes : state.takesAttributes = true := by obtain rfl | rfl := takes <;> rfl
  cases xs with
  | nil =>
      rw [group_content]
      exact .nil ⟨root, A, m, rfl⟩
  | cons x xs =>
      rw [eventsIn]
      cases x with
      | characters ch =>
          simp only [group_content]
          exact passed _ rfl passive (group_content_follows xs state S group G A t k m takes root)
      | ignorableWhitespace ch =>
          simp only [group_content]
          exact passed _ rfl passive (group_content_follows xs state S group G A t k m takes root)
      | cdataBlock value =>
          simp only [group_content]
          exact passed _ rfl passive (group_content_follows xs state S group G A t k m takes root)
      | element localname nsPrefix URI namespaces attributes content =>
          rw [group_content]
          by_cases inside : dap4 URI
          · rw [if_pos inside]
            dsimp only
            by_cases enum : localname = "Enumeration"
            · rw [if_pos enum]
              subst enum
              refine (enum_element_follows takes inside nsPrefix namespaces).bind lost_kept ?_
              rintro p' dmr ⟨m', rfl⟩
              exact group_content_follows xs state S group G A t _ m' takes (by exact root)
            rw [if_neg enum]
            by_cases dim : localname = "Dimension"
            · rw [if_pos dim]
              subst dim
              refine (dimension_element_follows takes inside nsPrefix namespaces).bind lost_kept ?_
              rintro p' dmr ⟨m', rfl⟩
              exact group_content_follows xs state S group G A t _ m' takes (by exact root)
            rw [if_neg dim]
            by_cases grp : localname = "Group"
            · rw [if_pos grp]
              subst grp
              have started := start_in_group_of (p := calm k (state :: S) [] (group :: G) (t :: A) m)
                rfl takes inside nsPrefix namespaces "Group" attributes
              cases named : (XMLAttrMap.ofAttributes attributes).value? "name" with
              | none =>
                  obtain ⟨q, processed⟩ := process_group_lost named
                    (p := calm k (state :: S) [] (group :: G) (t :: A) m)
                  refine .halted lost_kept ?_
                  rw [started, start_in_group_group processed]
                  exact LostIn.pure (Parser.lost_unexpected _ _ _)
              | some name =>
                  dsimp only
                  rw [Xml.events, List.cons_append, List.append_assoc]
                  refine .cons (started.trans (start_in_group_group (process_group_found named))) ?_
                  refine (group_content_follows content .inside_group (state :: S) _ (group :: G) (t :: A) _ _ _ (.inr rfl)
                    (by exact root)).bind lost_kept ?_
                  rintro p' ⟨t', k'⟩ ⟨root', A', m', rfl⟩
                  exact .cons (end_group _ _ nsPrefix URI)
                    (group_content_follows xs state S group G A' t' k' m' takes root')
            rw [if_neg grp]
            by_cases some_ : (Parser.variable_state (get_type localname)).isSome = true
            · rw [if_pos some_]
              obtain ⟨inner, found⟩ := Option.isSome_iff_exists.mp some_
              obtain ⟨rfl, -⟩ := state_of_variable found
              have started := start_variable (p := calm k (state :: S) [] (group :: G) (t :: A) m)
                rfl inside (by obtain rfl | rfl := takes <;> simp) found nsPrefix namespaces attributes
              have follows := variable_element_follows started root
                (by cases is_simple_type (get_type localname) <;> rfl) fun btp table k' m' root' =>
                members_follows _ content (state :: S) [] group G (t :: A) table btp k' m' root'
              rw [Xml.events, ← List.cons_append, List.append_assoc]
              refine follows.bind lost_kept ?_
              rintro p' ⟨v, k'⟩ ⟨table, root', m', rfl⟩
              exact .cons (end_variable_in_group found nsPrefix URI)
                (group_content_follows xs state S group G A t _ m' takes (by exact root'))
            rw [if_neg some_]
            by_cases attr : localname = "Attribute"
            · rw [if_pos attr]
              subst attr
              refine (attribute_element_follows takesAttributes inside root
                (fun child k' m' root' => container_follows content _ _ child k' m' root')
                (fun k' m' root' => values_follows content _ _ t k' m' root')).bind lost_kept ?_
              rintro p' k' ⟨root', m', rfl⟩
              exact group_content_follows xs state S group G A t k' m' takes root'
            rw [if_neg attr]
            have variable_ : Parser.variable_state (get_type localname) = none := Option.not_isSome_iff_eq_none.mp some_
            exact .halted lost_kept (lost_in_group rfl takes inside enum dim grp variable_ attr nsPrefix namespaces)
          · rw [if_neg inside]
            exact passed_element rfl passive.1 inside (group_content_follows xs state S group G A t k m takes root)

/-! ## The document -/

section

variable {strict : Bool} {dmr : DMR} {A : List Table} {t : Table} {URI : Option String} {localname : String}
  {attributes : List (String × XMLAttribute)}

/-- A parser at the start of a document, with the table of the root. -/
def outer (strict : Bool) (dmr : DMR) (A : List Table) : Parser := calm ⟨dmr, strict, "", [], [], []⟩ [.parser_start] [] [] A []

theorem start_document (strict : Bool) (dmr : DMR) :
    (Parser.start strict dmr).dmr_start_document =
      outer strict (dmr.attributes dmr.root.id).2 [⟨(dmr.attributes dmr.root.id).1, []⟩] := rfl

theorem start_dataset_of (strict : Bool) (dmr : DMR) (A : List Table) (inside : dap4 URI) (localname : String)
    (nsPrefix : Option String) (namespaces : List (String × String)) (attributes : List (String × XMLAttribute)) :
    (outer strict dmr A).handle (.startElement localname nsPrefix URI namespaces attributes) =
      (outer strict dmr A).start_dataset localname URI attributes := by
  have started : (outer strict dmr A).handle (.startElement localname nsPrefix URI namespaces attributes) =
      (outer strict dmr A).dmr_start_element localname nsPrefix URI namespaces attributes := rfl
  rw [started]
  unfold Parser.dmr_start_element
  rw [outside_dap4 rfl inside]
  rfl

theorem start_dataset_found {name : Name} (named : (XMLAttrMap.ofAttributes attributes).value? "name" = some name) :
    (outer strict dmr A).start_dataset "Dataset" URI attributes =
      (Parser.set_versions (URI.getD "") (.ofAttributes attributes) { dmr with d_name := name } >>= fun dmr =>
        .ok (calm ⟨dmr, strict, URI.getD "", [], [], []⟩ [.inside_dataset, .parser_start] [] [[]] A
          (.ofAttributes attributes))) := by
  unfold Parser.start_dataset
  have right : ¬Parser.is_not "Dataset" "Dataset" = true := by decide
  rw [if_neg right]
  unfold Parser.check_required_attribute
  dsimp only
  rw [check_of named, if_pos Option.isSome_some]
  dsimp only
  rw [if_pos rfl, value_of named]
  rfl

theorem lost_start (bad : localname ≠ "Dataset" ∨ (XMLAttrMap.ofAttributes attributes).value? "name" = none) (p : Parser) :
    LostIn (p.start_dataset localname URI attributes) := by
  have checked : Lost (((({ (if Parser.is_not localname "Dataset" then
      p.dmr_error ("Expected DMR to start with a Dataset element; found '".toList ++ localname.toList ++
        "' instead.".toList) else p) with root_ns := URI.getD "" } : Parser).transfer_xml_attrs
          attributes).check_required_attribute "name").2) := by
    cases bad with
    | inl other =>
        apply Parser.lost_check_required
        have wrong : Parser.is_not localname "Dataset" = true := decide_eq_true other
        rw [if_pos wrong]
        exact rfl
    | inr unnamed =>
        unfold Parser.check_required_attribute
        rw [check_of unnamed]
        exact lost_dmr_error _ _
  unfold Parser.start_dataset
  exact .bind fun dmr _ => .pure ((checked.push rfl).of_states rfl : Lost _)

theorem end_dataset (k : Kept) (m : XMLAttrMap) (nsPrefix URI : Option String) :
    (calm k [.inside_dataset, .parser_start] [] [[]] A m).handle (.endElement "Dataset" nsPrefix URI) =
      .ok (calm k [.parser_end] [] [[]] A m) := rfl

/-- A `Dataset`. -/
theorem document_follows (strict : Bool) (dmr : DMR) (inside : dap4 URI) (localname : String) (nsPrefix : Option String)
    (namespaces : List (String × String)) (attributes : List (String × XMLAttribute)) (content : List Xml) :
    FollowsDmr (document strict dmr (.element localname nsPrefix URI namespaces attributes content))
      (Xml.element localname nsPrefix URI namespaces attributes content).events
      (Parser.start strict dmr).dmr_start_document fun p' dmr' =>
        ∃ k t A m, p' = calm k [.parser_end] [] [[]] (t :: A) m ∧ k.dmr = dmr' := by
  rw [start_document, Xml.events]
  unfold document
  dsimp only
  rw [if_pos inside]
  have started := start_dataset_of strict (dmr.attributes dmr.root.id).2 [⟨(dmr.attributes dmr.root.id).1, []⟩] inside localname
    nsPrefix namespaces attributes
  by_cases dataset : localname = "Dataset"
  · rw [if_pos dataset]
    subst dataset
    cases named : (XMLAttrMap.ofAttributes attributes).value? "name" with
    | none =>
        refine .halted lost_kept ?_
        rw [started]
        exact lost_start (.inr named) _
    | some name =>
        rw [start_dataset_found named] at started
        dsimp only
        cases versions : Parser.set_versions (URI.getD "") (.ofAttributes attributes)
            { (dmr.attributes dmr.root.id).2 with d_name := name } with
        | error e =>
            rw [versions] at started
            exact .stopped started
        | ok dmr' =>
            rw [versions] at started
            refine .cons started ?_
            change FollowsDmr (group_content [] content ⟨(dmr.attributes dmr.root.id).1, []⟩
              ⟨dmr', strict, URI.getD "", [], [], []⟩ >>= _) _ _ _
            refine (group_content_follows content .inside_dataset [.parser_start] [] [] [] _ _ _ (.inl rfl)
              (by exact inside)).bind lost_kept ?_
            rintro p' ⟨t', k'⟩ ⟨root', A', m', rfl⟩
            exact .cons (end_dataset _ _ nsPrefix URI) (.nil ⟨k', t', A', m', rfl, rfl⟩)
  · rw [if_neg dataset]
    refine .halted lost_kept ?_
    rw [started]
    exact lost_start (.inl dataset) _

/-- There is no DMR when the `Dataset` has not begun. -/
theorem no_dataset (dmr' : DMR) : (outer strict dmr A).dmr_end_document.bind Parser.cleanup_parse ≠ .ok dmr' := by
  intro same
  cases same

theorem intern_eq (strict : Bool) (dmr : DMR) (events : List Event) :
    Parser.intern strict dmr events = (events.foldlM Parser.handle (Parser.start strict dmr).dmr_start_document).bind
      fun p => p.dmr_end_document.bind Parser.cleanup_parse := rfl

/-- When the parser is lost, or is still where it was, there is no DMR. -/
theorem no_intern {events : List Event} {r : Descent Unit}
    (follows : FollowsDmr r events (Parser.start strict dmr).dmr_start_document fun p' _ =>
      p' = (Parser.start strict dmr).dmr_start_document) (told : r ≠ .error .misplaced) (dmr' : DMR) :
    Parser.intern strict dmr events ≠ .ok dmr' := by
  rw [intern_eq]
  cases r with
  | ok =>
      obtain ⟨p', run, rfl⟩ := follows
      rw [run]
      exact no_dataset dmr'
  | error halt =>
      cases halt with
      | misplaced => exact absurd rfl told
      | failed =>
          cases run : events.foldlM Parser.handle (Parser.start strict dmr).dmr_start_document with
          | error e =>
              intro same
              cases same
          | ok p => exact (follows p run).no_dmr dmr'

end

/-- An element of DAP4 with attributes that have no namespace. -/
def tag (localname : String) (attributes : List (String × String)) (content : List Xml) : Xml :=
  .element localname none (some DMR.c_dap40_namespace) [] (attributes.map fun a => (a.1, ⟨"", "", a.2.toList⟩)) content

/-- A variable with a dimension of its own, and a group. -/
def station : Xml :=
  tag "Dataset" [("name", "station")] [tag "Int32" [("name", "t")] [tag "Dim" [("size", "2")] []],
      tag "Group" [("name", "inner")] [tag "Dimension" [("name", "time"), ("size", "3")] []]]

theorem station_described : ∃ d, document true DMR.new station = .ok d := by
  simp only [station, tag, document, group_content, variable_element, members]
  exact ⟨_, rfl⟩

end Libdap.Dap4.Dmr
