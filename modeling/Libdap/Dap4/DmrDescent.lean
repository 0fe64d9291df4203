import Libdap.Dap4.DmrDocument
import Libdap.Dap4.DmrErrors

/-! # The parser follows the document

What is on the stacks of the parser at an element is what the descent knows when it gets
there, and behind the element the stacks are as they were, but for the tables that groups
leave behind.
-/

namespace Libdap.Dap4.Dmr

namespace Parser

theorem lost_kept : ∀ p event p', Lost p → handle p event = .ok p' → Lost p' :=
  fun _ event p' lost taken => lost_handle lost event p' taken

/-- A parser between two tags, when it is in the middle of nothing. -/
def calm (k : Kept) (s : List ParseState) (btp_stack : List BaseType) (grp_stack : List Place)
    (d_attrs_stack : List Table) (xml_attrs : XMLAttrMap) : Parser where
  toKept := k
  s
  btp_stack
  grp_stack
  d_attrs_stack
  d_enum_def := none
  d_dim_def := none
  other_xml := []
  other_xml_depth := 0
  char_data := []
  xml_attrs
  d_error_msg := []

end Parser

open Typ
open Dmr.Parser (Lost LostIn lost_kept calm lost_dmr_error)

/-- The parser follows the descent through these events. -/
def FollowsDmr {α : Type} (r : Descent α) (events : List Event) (p : Parser) (Rel : Parser → α → Prop) : Prop :=
  Follows Parser.handle Parser.Lost r events p Rel

/-- The states in which texts come to nothing. -/
def ParseState.passive (state : ParseState) : Prop :=
  state ≠ .parser_error ∧ state ≠ .parser_unknown ∧ state ≠ .inside_attribute_value ∧
    state ≠ .inside_other_xml_attribute

instance (state : ParseState) : Decidable state.passive := inferInstanceAs (Decidable (_ ∧ _))

section

variable {p : Parser} {state : ParseState} {S : List ParseState} {URI : Option String}

theorem outside_foreign (stack : p.s = state :: S) (other : state ≠ .parser_error) (foreign : ¬dap4 URI) :
    p.outside URI = .ok (.not_dap4_element, p.push_state .not_dap4_element) := by
  unfold Parser.outside
  rw [stack]
  change (if state ≠ .parser_error ∧ URI.getD "" ≠ DMR.c_dap40_namespace then _ else _) = _
  rw [if_pos ⟨other, foreign⟩]
  rfl

theorem outside_dap4 (stack : p.s = state :: S) (inside : dap4 URI) : p.outside URI = .ok (state, p) := by
  unfold Parser.outside
  rw [stack]
  change (if state ≠ .parser_error ∧ URI.getD "" ≠ DMR.c_dap40_namespace then _ else _) = _
  rw [if_neg fun both => both.2 inside]
  rfl

theorem start_foreign (stack : p.s = state :: S) (other : state ≠ .parser_error) (foreign : ¬dap4 URI)
    (localname : String) (nsPrefix : Option String) (namespaces : List (String × String))
    (attributes : List (String × XMLAttribute)) :
    p.handle (.startElement localname nsPrefix URI namespaces attributes) = .ok (p.push_state .not_dap4_element) := by
  change p.dmr_start_element localname nsPrefix URI namespaces attributes = _
  unfold Parser.dmr_start_element
  rw [outside_foreign stack other foreign]
  rfl

theorem end_foreign (p : Parser) (localname : String) (nsPrefix : Option String) :
    (p.push_state .not_dap4_element).handle (.endElement localname nsPrefix URI) = .ok p := rfl

/-- The content of an element of another namespace, when the parser follows that. -/
theorem foreign_follows (stack : p.s = state :: S) (other : state ≠ .parser_error) (foreign : ¬dap4 URI)
    {localname : String} {nsPrefix : Option String} {namespaces : List (String × String)}
    {attributes : List (String × XMLAttribute)} {content : List Xml}
    (inside : FollowsDmr (pass_all content) (eventsIn content) (p.push_state .not_dap4_element)
      fun p' _ => p' = p.push_state .not_dap4_element) :
    FollowsDmr (pass_all content) (Xml.element localname nsPrefix URI namespaces attributes content).events p
      fun p' _ => p' = p := by
  rw [Xml.events]
  refine .cons (start_foreign stack other foreign localname nsPrefix namespaces attributes) ?_
  refine inside.concat lost_kept ?_
  rintro p' _ rfl
  exact ⟨p, end_foreign p localname nsPrefix, rfl⟩

theorem passive_not_dap4 : ParseState.not_dap4_element.passive := by decide

theorem characters_passive (stack : p.s = state :: S) (passive : state.passive) (ch : Name) :
    p.handle (.characters ch) = .ok p := by
  obtain ⟨-, -, value, other⟩ := passive
  change Except.ok (p.dmr_get_characters ch) = _
  unfold Parser.dmr_get_characters
  rw [stack]
  cases state with
  | inside_attribute_value => exact absurd rfl value
  | inside_other_xml_attribute => exact absurd rfl other
  | _ => rfl

theorem whitespace_passive (stack : p.s = state :: S) (other : state ≠ .inside_other_xml_attribute) (ch : Name) :
    p.handle (.ignorableWhitespace ch) = .ok p := by
  change Except.ok (p.dmr_ignoreable_whitespace ch) = _
  unfold Parser.dmr_ignoreable_whitespace
  rw [stack]
  cases state with
  | inside_other_xml_attribute => exact absurd rfl other
  | _ => rfl

theorem cdata_lost (stack : p.s = state :: S) (unknown : state ≠ .parser_unknown)
    (other : state ≠ .inside_other_xml_attribute) (value : Name) : LostIn (p.handle (.cdataBlock value)) := by
  change LostIn (.ok (p.dmr_get_cdata value))
  unfold Parser.dmr_get_cdata
  rw [stack]
  cases state with
  | inside_other_xml_attribute => exact absurd rfl other
  | parser_unknown => exact absurd rfl unknown
  | _ => exact .pure (lost_dmr_error _ _)

end

mutual

theorem pass_over_follows (x : Xml) {p : Parser} {state : ParseState} {S : List ParseState} (stack : p.s = state :: S)
    (passive : state.passive) : FollowsDmr (pass_over x) x.events p fun p' _ => p' = p := by
  cases x with
  | element localname nsPrefix URI namespaces attributes content =>
      rw [pass_over]
      split
      · exact Follows.misplaced
      · rename_i foreign
        exact foreign_follows stack passive.1 foreign (pass_all_follows content rfl passive_not_dap4)
  | characters ch => exact .cons (characters_passive stack passive ch) (.nil rfl)
  | ignorableWhitespace ch => exact .cons (whitespace_passive stack passive.2.2.2 ch) (.nil rfl)
  | cdataBlock value => exact .halted lost_kept (cdata_lost stack passive.2.1 passive.2.2.2 value)

/-- What has no meaning leaves the parser as it is. -/
theorem pass_all_follows (xs : List Xml) {p : Parser} {state : ParseState} {S : List ParseState}
    (stack : p.s = state :: S) (passive : state.passive) :
    FollowsDmr (pass_all xs) (eventsIn xs) p fun p' _ => p' = p := by
  cases xs with
  | nil => exact .nil rfl
  | cons x xs =>
      rw [pass_all, eventsIn]
      refine (pass_over_follows x stack passive).bind lost_kept ?_
      rintro p' _ rfl
      exact pass_all_follows xs stack passive

end

section

variable {k : Kept} {state : ParseState} {S : List ParseState} {B : List BaseType} {G : List Place} {A : List Table}
  {m : XMLAttrMap}

/-- A parser in a `Value`. -/
def inValue (k : Kept) (S : List ParseState) (B : List BaseType) (G : List Place) (A : List Table) (m : XMLAttrMap)
    (text : Name) : Parser :=
  { calm k (.inside_attribute_value :: S) B G A m with char_data := text }

theorem value_text_follows (xs : List Xml) (text : Name) :
    FollowsDmr (value_text xs text) (eventsIn xs) (inValue k S B G A m text) fun p' text' =>
      p' = inValue k S B G A m text' := by
  have other : (.inside_attribute_value : ParseState) ≠ .parser_error := ParseState.noConfusion
  induction xs generalizing text with
  | nil => exact .nil rfl
  | cons x xs ih =>
      cases x with
      | characters ch => exact .cons rfl (ih (text ++ ch))
      | ignorableWhitespace ch => exact .cons rfl (ih text)
      | cdataBlock value =>
          exact .halted lost_kept (cdata_lost rfl ParseState.noConfusion ParseState.noConfusion value)
      | element localname nsPrefix URI namespaces attributes content =>
          have passed : FollowsDmr (pass_over (.element localname nsPrefix URI namespaces attributes content))
              (Xml.element localname nsPrefix URI namespaces attributes content).events (inValue k S B G A m text)
              fun p' _ => p' = inValue k S B G A m text := by
            rw [pass_over]
            split
            · exact Follows.misplaced
            · rename_i foreign
              exact foreign_follows rfl other foreign (pass_all_follows content rfl passive_not_dap4)
          refine passed.bind lost_kept ?_
          rintro p' _ rfl
          exact ih text

/-- A parser in an `OtherXML` attribute. -/
def inOtherXml (k : Kept) (S : List ParseState) (B : List BaseType) (G : List Place) (A : List Table) (m : XMLAttrMap)
    (text : Name) (depth : Nat) : Parser :=
  { calm k (.inside_other_xml_attribute :: S) B G A m with other_xml := text, other_xml_depth := depth }

/-- Where the parser is behind what is in an `OtherXML` attribute. -/
def AtOtherXml (S : List ParseState) (B : List BaseType) (G : List Place) (A : List Table) (depth : Nat) (p : Parser)
    (found : Kept × Name) : Prop :=
  found.1.root_ns = DMR.c_dap40_namespace ∧ ∃ m, p = inOtherXml found.1 S B G A m found.2 depth

theorem start_other_xml_of (k : Kept) (S : List ParseState) (B : List BaseType) (G : List Place) (A : List Table)
    (m : XMLAttrMap) (text : Name) (depth : Nat) {URI : Option String} (inside : dap4 URI) (localname : String)
    (nsPrefix : Option String) (namespaces : List (String × String)) (attributes : List (String × XMLAttribute)) :
    ∃ m', (inOtherXml k S B G A m text depth).handle (.startElement localname nsPrefix URI namespaces attributes) =
      .ok (inOtherXml { k with namespace_table := namespaces.foldl (fun m n => insertKeyed Prod.fst n m) k.namespace_table }
        S B G A m' (text ++ Parser.start_tag localname nsPrefix (if namespaces = [] then [] else
          namespaces.foldl (fun m n => insertKeyed Prod.fst n m) k.namespace_table) (.ofAttributes attributes))
        (depth + 1)) := by
  change ∃ m', (inOtherXml k S B G A m text depth).dmr_start_element localname nsPrefix URI namespaces attributes = _
  unfold Parser.dmr_start_element
  rw [outside_dap4 rfl inside]
  change ∃ m', Except.ok ((inOtherXml k S B G A m text depth).start_other_xml localname nsPrefix namespaces attributes) = _
  unfold Parser.start_other_xml
  refine ⟨if attributes = [] then m else .ofAttributes attributes, ?_⟩
  cases namespaces <;> cases attributes <;> rfl

theorem end_in_other_xml_of (k : Kept) (S : List ParseState) (B : List BaseType) (G : List Place) (A : List Table)
    (m : XMLAttrMap) (text : Name) (depth : Nat) {URI : Option String} {localname : String}
    (other : localname ≠ "Attribute") (nsPrefix : Option String) :
    (inOtherXml k S B G A m text (depth + 1)).handle (.endElement localname nsPrefix URI) =
      .ok (inOtherXml k S B G A m (text ++ ("</".toList ++ ((nsPrefix.map fun pre => pre.toList ++ ":".toList).getD [] ++
        (localname.toList ++ ">".toList)))) depth) := by
  change (inOtherXml k S B G A m text (depth + 1)).end_other_xml localname nsPrefix URI = _
  unfold Parser.end_other_xml
  rw [if_neg other]
  rfl

/-- The namespace of an element of DAP4 is not left out. -/
theorem dap4_some {URI : Option String} (inside : dap4 URI) : URI = some DMR.c_dap40_namespace := by
  cases URI with
  | none => exact absurd inside (by decide)
  | some uri => exact congrArg some inside

mutual

theorem other_text_follows (x : Xml) (k : Kept) (m : XMLAttrMap) (text : Name) (depth : Nat)
    (root : k.root_ns = DMR.c_dap40_namespace) :
    FollowsDmr (other_text x k text) x.events (inOtherXml k S B G A m text depth) (AtOtherXml S B G A depth) := by
  cases x with
  | characters ch => exact .cons rfl (.nil ⟨root, m, rfl⟩)
  | ignorableWhitespace ch => exact .cons rfl (.nil ⟨root, m, rfl⟩)
  | cdataBlock value => exact .cons rfl (.nil ⟨root, m, rfl⟩)
  | element localname nsPrefix URI namespaces attributes content =>
      rw [other_text]
      split
      · rename_i inside
        split
        · exact Follows.misplaced
        rename_i inner
        rw [Xml.events]
        obtain ⟨m', started⟩ := start_other_xml_of k S B G A m text depth inside localname nsPrefix namespaces attributes
        refine .cons started ((other_texts_follows content _ m' _ (depth + 1) (by exact root)).bind lost_kept ?_)
        rintro p' ⟨k', text'⟩ ⟨root', m'', rfl⟩
        have other : localname ≠ "Attribute" := fun named => inner ⟨named, (dap4_some inside).trans (congrArg some root.symm)⟩
        exact .cons (end_in_other_xml_of _ _ _ _ _ _ _ _ other nsPrefix) (.nil ⟨root', m'', rfl⟩)
      · rename_i foreign
        have other : (.inside_other_xml_attribute : ParseState) ≠ .parser_error := ParseState.noConfusion
        have passed : FollowsDmr (pass_all content)
            (Xml.element localname nsPrefix URI namespaces attributes content).events
            (inOtherXml k S B G A m text depth) fun p' _ => p' = inOtherXml k S B G A m text depth :=
          foreign_follows rfl other foreign (pass_all_follows content rfl passive_not_dap4)
        refine passed.ending lost_kept ?_
        rintro p' _ rfl
        exact .nil ⟨root, m, rfl⟩

theorem other_texts_follows (xs : List Xml) (k : Kept) (m : XMLAttrMap) (text : Name) (depth : Nat)
    (root : k.root_ns = DMR.c_dap40_namespace) :
    FollowsDmr (other_texts xs k text) (eventsIn xs) (inOtherXml k S B G A m text depth) (AtOtherXml S B G A depth) := by
  cases xs with
  | nil => exact .nil ⟨root, m, rfl⟩
  | cons x xs =>
      rw [other_texts, eventsIn]
      refine (other_text_follows x k m text depth root).bind lost_kept ?_
      rintro p' found ⟨root', m', rfl⟩
      exact other_texts_follows xs found.1 m' found.2 depth root'

end

end

/-! ## Attributes -/

/-- Where the parser is between two elements. -/
def Calm (S : List ParseState) (B : List BaseType) (G : List Place) (A : List Table) (p : Parser) (k : Kept) : Prop :=
  k.root_ns = DMR.c_dap40_namespace ∧ ∃ m, p = calm k S B G A m

section

variable {p : Parser} {state : ParseState} {S : List ParseState} {URI : Option String} {β : Type} {r : Descent β}
  {later : List Event} {Rel : Parser → β → Prop}

/-- What is passed over, in front of the rest. -/
theorem passed (x : Xml) (stack : p.s = state :: S) (passive : state.passive) (rest : FollowsDmr r later p Rel) :
    FollowsDmr (pass_over x >>= fun _ => r) (x.events ++ later) p Rel := by
  refine (pass_over_follows x stack passive).bind lost_kept ?_
  rintro p' _ rfl
  exact rest

/-- An element of another namespace, in front of the rest. -/
theorem passed_element (stack : p.s = state :: S) (other : state ≠ .parser_error) (foreign : ¬dap4 URI)
    {localname : String} {nsPrefix : Option String} {namespaces : List (String × String)}
    {attributes : List (String × XMLAttribute)} {content : List Xml} (rest : FollowsDmr r later p Rel) :
    FollowsDmr (pass_all content >>= fun _ => r)
      ((Xml.element localname nsPrefix URI namespaces attributes content).events ++ later) p Rel := by
  refine (foreign_follows stack other foreign (pass_all_follows content rfl passive_not_dap4)).bind lost_kept ?_
  rintro p' _ rfl
  exact rest

/-- The content of an element without content of its own, and its end. -/
theorem passed_content {content : List Xml} {i : Event} {q : Parser} (stack : p.s = state :: S) (passive : state.passive)
    (ends : p.handle i = .ok q) (rest : FollowsDmr r later q Rel) :
    FollowsDmr (pass_all content >>= fun _ => r) (eventsIn content ++ (i :: later)) p Rel := by
  refine (pass_all_follows content stack passive).bind lost_kept ?_
  rintro p' _ rfl
  exact .cons ends rest

end

namespace Parser

variable {p q : Parser} {name : String} {attrs : List (String × XMLAttribute)}

theorem process_enum_def_other (other : name ≠ "Enumeration") : p.process_enum_def name attrs = (false, p) := by
  simp only [process_enum_def, is_not, ne_eq, other, not_false_eq_true, decide_true, if_true]

theorem process_dimension_def_other (other : name ≠ "Dimension") : p.process_dimension_def name attrs = (false, p) := by
  simp only [process_dimension_def, is_not, ne_eq, other, not_false_eq_true, decide_true, if_true]

theorem process_group_other (other : name ≠ "Group") : p.process_group name attrs = .ok (false, p) := by
  simp only [process_group, is_not, ne_eq, other, not_false_eq_true, decide_true, if_true]
  rfl

theorem process_attribute_other (other : name ≠ "Attribute") : p.process_attribute name attrs = .ok (false, p) := by
  simp only [process_attribute, is_not, ne_eq, other, not_false_eq_true, decide_true, if_true]
  rfl

theorem process_dimension_other (other : name ≠ "Dim") : p.process_dimension name attrs = .ok (false, p) := by
  simp only [process_dimension, is_not, ne_eq, other, not_false_eq_true, decide_true, if_true]
  rfl

theorem process_map_other (other : name ≠ "Map") : p.process_map name attrs = .ok (false, p) := by
  simp only [process_map, is_not, ne_eq, other, not_false_eq_true, decide_true, if_true]
  rfl

theorem process_enum_const_other (other : name ≠ "EnumConst") : p.process_enum_const name attrs = (false, p) := by
  simp only [process_enum_const, is_not, ne_eq, other, not_false_eq_true, decide_true, if_true]

theorem process_variable_other (other : variable_state (get_type name) = none) :
    p.process_variable name attrs = .ok (false, p) := by
  unfold process_variable
  rw [other]
  rfl

theorem check_both_found {first second : String} (one : p.check_attribute first = true)
    (two : p.check_attribute second = true) : p.check_both first second = (true, p) := by
  simp only [check_both, check_required_attribute, one, two, if_true]

theorem check_both_missing (first second : String)
    (missing : ¬(p.check_attribute first = true ∧ p.check_attribute second = true)) :
    ∃ q, p.check_both first second = (false, q) := by
  unfold check_both check_required_attribute
  by_cases one : p.check_attribute first = true
  · have two : ¬p.check_attribute second = true := fun two => missing ⟨one, two⟩
    simp only [one, two, if_true]
    exact ⟨_, rfl⟩
  · simp only [one]
    exact ⟨_, rfl⟩

theorem start_in_group_attribute {b : Bool} (taken : p.process_attribute "Attribute" attrs = .ok (b, q)) :
    p.start_in_group "Attribute" attrs =
      .ok (if b then q else q.unexpected "an Attribute, Enumeration, Dimension, Group or variable element" "Attribute") := by
  unfold start_in_group
  rw [process_enum_def_other (by decide)]
  dsimp only
  rw [process_dimension_def_other (by decide)]
  dsimp only
  rw [process_group_other (by decide)]
  change (p.process_variable "Attribute" attrs >>= fun r => _) = _
  rw [process_variable_other (by decide)]
  change (p.process_attribute "Attribute" attrs >>= fun r => _) = _
  rw [taken]
  cases b <;> rfl

theorem start_in_variable_attribute {b : Bool} {expected : String}
    (taken : p.process_attribute "Attribute" attrs = .ok (b, q)) :
    p.start_in_variable expected "Attribute" attrs = .ok (if b then q else q.unexpected expected "Attribute") := by
  unfold start_in_variable
  rw [taken]
  cases b with
  | true => rfl
  | false =>
      change (q.process_dimension "Attribute" attrs >>= fun r => _) = _
      rw [process_dimension_other (by decide)]
      change (q.process_map "Attribute" attrs >>= fun r => _) = _
      rw [process_map_other (by decide)]
      rfl

end Parser

/-- The states in which an attribute may start. -/
def ParseState.takesAttributes : ParseState → Bool
  | inside_dataset | inside_group | inside_attribute_container | inside_attribute | inside_simple_type
  | inside_constructor => true
  | _ => false

section

variable {p q : Parser} {state : ParseState} {S : List ParseState} {URI : Option String}
  {attributes : List (String × XMLAttribute)} {b : Bool}

/-- An `Attribute` is for `process_attribute`, wherever it may start. -/
theorem start_attribute (takes : state.takesAttributes = true) (stack : p.s = state :: S) (inside : dap4 URI)
    (taken : p.process_attribute "Attribute" attributes = .ok (b, q)) (nsPrefix : Option String)
    (namespaces : List (String × String)) :
    ∃ expected, p.handle (.startElement "Attribute" nsPrefix URI namespaces attributes) =
      .ok (if b then q else q.unexpected expected "Attribute") := by
  have started : p.handle (.startElement "Attribute" nsPrefix URI namespaces attributes) =
      p.dmr_start_element "Attribute" nsPrefix URI namespaces attributes := rfl
  rw [started]
  unfold Parser.dmr_start_element
  rw [outside_dap4 stack inside]
  cases state with
  | inside_dataset | inside_group => exact ⟨_, Parser.start_in_group_attribute taken⟩
  | inside_attribute_container | inside_attribute =>
      change ∃ expected, (p.process_attribute "Attribute" attributes >>= fun r => _) = _
      rw [taken]
      cases b with
      | true => exact ⟨"", rfl⟩
      | false => exact ⟨_, rfl⟩
  | inside_simple_type => exact ⟨_, Parser.start_in_variable_attribute taken⟩
  | inside_constructor =>
      change ∃ expected, (p.process_variable "Attribute" attributes >>= fun r => _) = _
      rw [Parser.process_variable_other (by decide)]
      exact ⟨_, Parser.start_in_variable_attribute taken⟩
  | _ => cases takes

theorem start_attribute_ok (takes : state.takesAttributes = true) (stack : p.s = state :: S) (inside : dap4 URI)
    (taken : p.process_attribute "Attribute" attributes = .ok (true, q)) (nsPrefix : Option String)
    (namespaces : List (String × String)) :
    p.handle (.startElement "Attribute" nsPrefix URI namespaces attributes) = .ok q := by
  obtain ⟨expected, started⟩ := start_attribute takes stack inside taken nsPrefix namespaces
  exact started

theorem start_attribute_lost (takes : state.takesAttributes = true) (stack : p.s = state :: S) (inside : dap4 URI)
    (taken : p.process_attribute "Attribute" attributes = .ok (false, q)) (nsPrefix : Option String)
    (namespaces : List (String × String)) :
    LostIn (p.handle (.startElement "Attribute" nsPrefix URI namespaces attributes)) := by
  obtain ⟨expected, started⟩ := start_attribute takes stack inside taken nsPrefix namespaces
  rw [started]
  exact .pure (Parser.lost_unexpected _ _ _)

end

section

variable {p : Parser} {attributes : List (String × XMLAttribute)}

theorem value_of {attr : String} {name : Name} (found : (XMLAttrMap.ofAttributes attributes).value? attr = some name) :
    (p.transfer_xml_attrs attributes).value attr = name := by
  change ((XMLAttrMap.ofAttributes attributes).value? attr).getD [] = name
  rw [found]
  rfl

theorem check_of {attr : String} {found : Option Name} (looked : (XMLAttrMap.ofAttributes attributes).value? attr = found) :
    (p.transfer_xml_attrs attributes).check_attribute attr = found.isSome := congrArg Option.isSome looked

/-- Of two attributes that an element needs one is not there. -/
theorem check_both_absent {first second : String}
    (absent : (XMLAttrMap.ofAttributes attributes).value? first = none ∨
      (XMLAttrMap.ofAttributes attributes).value? second = none) :
    ∃ q, (p.transfer_xml_attrs attributes).check_both first second = (false, q) := by
  apply Parser.check_both_missing
  rintro ⟨one, two⟩
  cases absent with
  | inl none_ =>
      rw [check_of none_] at one
      cases one
  | inr none_ =>
      rw [check_of none_] at two
      cases two

end

section

variable {k : Kept} {state : ParseState} {S : List ParseState} {B : List BaseType} {G : List Place} {A : List Table}
  {m : XMLAttrMap} {t : Table} {attributes : List (String × XMLAttribute)}

/-- What `process_attribute` makes of the attribute. -/
theorem process_attribute_found {name type : Name} (named : (XMLAttrMap.ofAttributes attributes).value? "name" = some name)
    (typed : (XMLAttrMap.ofAttributes attributes).value? "type" = some type) :
    (calm k S B G (t :: A) m).process_attribute "Attribute" attributes = .ok (true,
      if type = "Container".toList then
        calm { k with dmr := (k.dmr.add_container t name).2 } (.inside_attribute_container :: S) B G
          ((k.dmr.add_container t name).1 :: t :: A) (.ofAttributes attributes)
      else if type = "OtherXML".toList then
        calm { k with dods_attr_name := name, dods_attr_type := type } (.inside_other_xml_attribute :: S) B G (t :: A)
          (.ofAttributes attributes)
      else
        calm { k with dods_attr_name := name, dods_attr_type := type } (.inside_attribute :: S) B G (t :: A)
          (.ofAttributes attributes)) := by
  have name_is : ((calm k S B G (t :: A) m).transfer_xml_attrs attributes).value "name" = name := value_of named
  have type_is : ((calm k S B G (t :: A) m).transfer_xml_attrs attributes).value "type" = type := value_of typed
  unfold Parser.process_attribute
  rw [Parser.check_both_found (check_of named) (check_of typed)]
  split
  · rename_i other
    exact absurd other (by decide)
  dsimp only
  by_cases contains : type = "Container".toList
  · rw [if_pos contains, if_pos (type_is.trans contains), ← name_is]
    rfl
  rw [if_neg contains, if_neg fun same => contains (type_is.symm.trans same)]
  by_cases xml : type = "OtherXML".toList
  · rw [if_pos xml, if_pos (type_is.trans xml), ← name_is, ← type_is]
    rfl
  · rw [if_neg xml, if_neg fun same => xml (type_is.symm.trans same), ← name_is, ← type_is]
    rfl

theorem process_attribute_missing
    (missing : (XMLAttrMap.ofAttributes attributes).value? "name" = none ∨
      (XMLAttrMap.ofAttributes attributes).value? "type" = none) :
    ∃ q, (calm k S B G A m).process_attribute "Attribute" attributes = .ok (false, q) := by
  obtain ⟨q, checked⟩ := check_both_absent (p := calm k S B G A m) missing
  unfold Parser.process_attribute
  rw [checked]
  exact ⟨_, rfl⟩

end

section

variable {k : Kept} {state : ParseState} {S : List ParseState} {B : List BaseType} {G : List Place} {A : List Table}
  {m : XMLAttrMap} {t : Table} {nsPrefix URI : Option String} {namespaces : List (String × String)}
  {attributes : List (String × XMLAttribute)} {content : List Xml}

theorem end_container (k : Kept) (S : List ParseState) (B : List BaseType) (G : List Place) (A : List Table)
    (m : XMLAttrMap) (child : Table) (nsPrefix URI : Option String) :
    (calm k (.inside_attribute_container :: S) B G (child :: A) m).handle (.endElement "Attribute" nsPrefix URI) =
      .ok (calm k S B G A m) := rfl

theorem end_attribute (k : Kept) (S : List ParseState) (B : List BaseType) (G : List Place) (A : List Table)
    (m : XMLAttrMap) (nsPrefix URI : Option String) :
    (calm k (.inside_attribute :: S) B G A m).handle (.endElement "Attribute" nsPrefix URI) =
      .ok (calm k S B G A m) := rfl

theorem end_other_xml_of (root : k.root_ns = DMR.c_dap40_namespace) (inside : dap4 URI) (S : List ParseState)
    (B : List BaseType) (G : List Place) (A : List Table) (m : XMLAttrMap) (t : Table) (text : Name)
    (nsPrefix : Option String) :
    (inOtherXml k S B G (t :: A) m text 0).handle (.endElement "Attribute" nsPrefix URI) =
      .ok (calm (k.add_value t text) S B G (t :: A) m) := by
  obtain rfl := dap4_some inside
  change (inOtherXml k S B G (t :: A) m text 0).end_other_xml "Attribute" nsPrefix (some DMR.c_dap40_namespace) = _
  unfold Parser.end_other_xml
  rw [if_pos rfl]
  change (if k.root_ns = DMR.c_dap40_namespace then _ else _) = _
  rw [if_pos root]
  rfl

/-- An `Attribute`, when the parser follows what is in it. -/
theorem attribute_element_follows (takes : state.takesAttributes = true) (inside : dap4 URI)
    (root : k.root_ns = DMR.c_dap40_namespace)
    (containers : ∀ child k' m', k'.root_ns = DMR.c_dap40_namespace →
      FollowsDmr (container child content k') (eventsIn content)
        (calm k' (.inside_attribute_container :: state :: S) B G (child :: t :: A) m')
        (Calm (.inside_attribute_container :: state :: S) B G (child :: t :: A)))
    (attribute_values : ∀ k' m', k'.root_ns = DMR.c_dap40_namespace →
      FollowsDmr (values t content k') (eventsIn content) (calm k' (.inside_attribute :: state :: S) B G (t :: A) m')
        (Calm (.inside_attribute :: state :: S) B G (t :: A))) :
    FollowsDmr (attribute_element t attributes content k)
      (Xml.element "Attribute" nsPrefix URI namespaces attributes content).events (calm k (state :: S) B G (t :: A) m)
      (Calm (state :: S) B G (t :: A)) := by
  rw [attribute_element, Xml.events]
  dsimp only
  cases named : (XMLAttrMap.ofAttributes attributes).value? "name" with
  | none =>
      obtain ⟨q, taken⟩ := process_attribute_missing (k := k) (S := state :: S) (B := B) (G := G) (A := t :: A) (m := m) (.inl named)
      exact .halted lost_kept (start_attribute_lost takes rfl inside taken nsPrefix namespaces)
  | some name =>
      cases typed : (XMLAttrMap.ofAttributes attributes).value? "type" with
      | none =>
          obtain ⟨q, taken⟩ := process_attribute_missing (k := k) (S := state :: S) (B := B) (G := G) (A := t :: A) (m := m) (.inr typed)
          exact .halted lost_kept (start_attribute_lost takes rfl inside taken nsPrefix namespaces)
      | some type =>
          refine .cons (start_attribute_ok takes rfl inside (process_attribute_found named typed) nsPrefix namespaces) ?_
          dsimp only
          split
          · refine (containers _ _ _ (by exact root)).concat lost_kept ?_
            rintro p' k' ⟨root', m', rfl⟩
            exact ⟨_, end_container _ _ _ _ _ _ _ nsPrefix URI, root', m', rfl⟩
          · split
            · refine (other_texts_follows content _ _ [] 0 (by exact root)).bind lost_kept ?_
              rintro p' ⟨k', text⟩ ⟨root', m', rfl⟩
              exact .cons (end_other_xml_of root' inside _ _ _ _ _ _ _ nsPrefix) (.nil ⟨root', m', rfl⟩)
            · refine (attribute_values _ _ (by exact root)).concat lost_kept ?_
              rintro p' k' ⟨root', m', rfl⟩
              exact ⟨_, end_attribute _ _ _ _ _ _ nsPrefix URI, root', m', rfl⟩

end

section

variable {S : List ParseState} {B : List BaseType} {G : List Place} {A : List Table}

theorem start_value (k : Kept) (m : XMLAttrMap) {URI : Option String} (inside : dap4 URI) (nsPrefix : Option String)
    (namespaces : List (String × String)) (attributes : List (String × XMLAttribute)) :
    (calm k (.inside_attribute :: S) B G A m).handle (.startElement "Value" nsPrefix URI namespaces attributes) =
      .ok (inValue k (.inside_attribute :: S) B G A m []) := by
  change (calm k (.inside_attribute :: S) B G A m).dmr_start_element "Value" nsPrefix URI namespaces attributes = _
  unfold Parser.dmr_start_element
  rw [outside_dap4 rfl inside]
  change ((calm k (.inside_attribute :: S) B G A m).process_attribute "Value" attributes >>= fun r => _) = _
  rw [Parser.process_attribute_other (by decide)]
  rfl

theorem end_value (k : Kept) (m : XMLAttrMap) (t : Table) (text : Name) (nsPrefix URI : Option String) :
    (inValue k S B G (t :: A) m text).handle (.endElement "Value" nsPrefix URI) =
      .ok (calm (k.add_value t text) S B G (t :: A) m) := rfl

theorem lost_in_container (k : Kept) (m : XMLAttrMap) {URI : Option String} (inside : dap4 URI) {localname : String}
    (other : localname ≠ "Attribute") (nsPrefix : Option String) (namespaces : List (String × String))
    (attributes : List (String × XMLAttribute)) :
    LostIn ((calm k (.inside_attribute_container :: S) B G A m).handle
      (.startElement localname nsPrefix URI namespaces attributes)) := by
  change LostIn ((calm k (.inside_attribute_container :: S) B G A m).dmr_start_element localname nsPrefix URI namespaces
    attributes)
  unfold Parser.dmr_start_element
  rw [outside_dap4 rfl inside]
  change LostIn ((calm k (.inside_attribute_container :: S) B G A m).process_attribute localname attributes >>= fun r => _)
  rw [Parser.process_attribute_other other]
  exact .pure (Parser.lost_unexpected _ _ _)

theorem lost_in_attribute (k : Kept) (m : XMLAttrMap) {URI : Option String} (inside : dap4 URI) {localname : String}
    (other : localname ≠ "Attribute") (value : localname ≠ "Value") (nsPrefix : Option String)
    (namespaces : List (String × String)) (attributes : List (String × XMLAttribute)) :
    LostIn ((calm k (.inside_attribute :: S) B G A m).handle
      (.startElement localname nsPrefix URI namespaces attributes)) := by
  change LostIn ((calm k (.inside_attribute :: S) B G A m).dmr_start_element localname nsPrefix URI namespaces attributes)
  unfold Parser.dmr_start_element
  rw [outside_dap4 rfl inside]
  change LostIn ((calm k (.inside_attribute :: S) B G A m).process_attribute localname attributes >>= fun r => _)
  rw [Parser.process_attribute_other other]
  change LostIn (if localname = "Value" then _ else _)
  rw [if_neg value]
  exact .pure (Parser.lost_unexpected _ _ _)

mutual

theorem container_follows (xs : List Xml) (S : List ParseState) (A : List Table) (t : Table) (k : Kept) (m : XMLAttrMap)
    (root : k.root_ns = DMR.c_dap40_namespace) :
    FollowsDmr (container t xs k) (eventsIn xs) (calm k (.inside_attribute_container :: S) B G (t :: A) m)
      (Calm (.inside_attribute_container :: S) B G (t :: A)) := by
  cases xs with
  | nil =>
      rw [container]
      exact .nil ⟨root, m, rfl⟩
  | cons x xs =>
      rw [eventsIn]
      cases x with
      | characters ch =>
          simp only [container]
          exact passed _ rfl (by decide) (container_follows xs S A t k m root)
      | ignorableWhitespace ch =>
          simp only [container]
          exact passed _ rfl (by decide) (container_follows xs S A t k m root)
      | cdataBlock value =>
          simp only [container]
          exact passed _ rfl (by decide) (container_follows xs S A t k m root)
      | element localname nsPrefix URI namespaces attributes content =>
          rw [container]
          split
          · rename_i inside
            split
            · rename_i named
              subst named
              refine (attribute_element_follows rfl inside root
                (fun child k' m' root' => container_follows content _ _ child k' m' root')
                (fun k' m' root' => values_follows content _ _ t k' m' root')).bind lost_kept ?_
              rintro p' k' ⟨root', m', rfl⟩
              exact container_follows xs S A t k' m' root'
            · rename_i other
              exact .halted lost_kept (lost_in_container k m inside other nsPrefix namespaces attributes)
          · rename_i foreign
            exact passed_element rfl ParseState.noConfusion foreign (container_follows xs S A t k m root)

theorem values_follows (xs : List Xml) (S : List ParseState) (A : List Table) (t : Table) (k : Kept) (m : XMLAttrMap)
    (root : k.root_ns = DMR.c_dap40_namespace) :
    FollowsDmr (values t xs k) (eventsIn xs) (calm k (.inside_attribute :: S) B G (t :: A) m)
      (Calm (.inside_attribute :: S) B G (t :: A)) := by
  cases xs with
  | nil =>
      rw [values]
      exact .nil ⟨root, m, rfl⟩
  | cons x xs =>
      rw [eventsIn]
      cases x with
      | characters ch =>
          simp only [values]
          exact passed _ rfl (by decide) (values_follows xs S A t k m root)
      | ignorableWhitespace ch =>
          simp only [values]
          exact passed _ rfl (by decide) (values_follows xs S A t k m root)
      | cdataBlock value =>
          simp only [values]
          exact passed _ rfl (by decide) (values_follows xs S A t k m root)
      | element localname nsPrefix URI namespaces attributes content =>
          rw [values]
          split
          · rename_i inside
            split
            · rename_i named
              subst named
              refine (attribute_element_follows rfl inside root
                (fun child k' m' root' => container_follows content _ _ child k' m' root')
                (fun k' m' root' => values_follows content _ _ t k' m' root')).bind lost_kept ?_
              rintro p' k' ⟨root', m', rfl⟩
              exact values_follows xs S A t k' m' root'
            · rename_i other
              split
              · rename_i value
                subst value
                rw [Xml.events, List.cons_append, List.append_assoc]
                refine .cons (start_value k m inside nsPrefix namespaces attributes)
                  ((value_text_follows content []).bind lost_kept ?_)
                rintro p' text rfl
                exact .cons (end_value k m t text nsPrefix URI) (values_follows xs S A t _ m (by exact root))
              · rename_i value
                exact .halted lost_kept (lost_in_attribute k m inside other value nsPrefix namespaces attributes)
          · rename_i foreign
            exact passed_element rfl ParseState.noConfusion foreign (values_follows xs S A t k m root)

end

end

end Libdap.Dap4.Dmr
