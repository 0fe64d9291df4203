import Libdap.Dap4.DmrParser
import Libdap.Foundation.Descent

/-! # Errors of the parser

No callback takes an error from the stack that another one pushed: what has an error never
becomes a DMR, whatever is read after it. A callback for an end tag may take back its own.
-/

namespace Libdap.Dap4.Dmr

/-- The states of an error. -/
def ParseState.isError (state : ParseState) : Bool := state == .parser_error || state == .parser_fatal_error

/-- The states outside of the `Dataset`. -/
def ParseState.isOuter (state : ParseState) : Bool := state == .parser_start || state == .parser_end

/-- There is an error on the stack, and all above it is inside of the `Dataset`. -/
def hasError : List ParseState → Bool
  | [] => false
  | state :: s => ParseState.isError state || (!ParseState.isOuter state && hasError s)

namespace Parser

def Lost (p : Parser) : Prop := hasError p.s = true

variable {p p' : Parser} {b : Bool} {name : String} {attrs : List (String × XMLAttribute)}

theorem Lost.push (lost : Lost p) {state : ParseState} (inner : ParseState.isOuter state = false) :
    Lost (p.push_state state) := by
  simp only [Lost, push_state, hasError, inner, Bool.not_false, Bool.true_and, Bool.or_eq_true]
  exact .inr lost

theorem lost_dmr_error (msg : Name) (p : Parser) : Lost (p.dmr_error msg) := rfl

theorem lost_dmr_fatal_error (msg : Name) (p : Parser) : Lost (p.dmr_fatal_error msg) := rfl

theorem lost_unexpected (expected localname : String) (p : Parser) : Lost (p.unexpected expected localname) := rfl

/-- Something is done without the states. -/
theorem Lost.of_states (lost : Lost p) (same : p'.s = p.s) : Lost p' := by
  rw [Lost, same]
  exact lost

theorem lost_check_required (lost : Lost p) (attr : String) : Lost (p.check_required_attribute attr).2 := by
  unfold check_required_attribute
  split
  · exact lost
  · exact lost_dmr_error _ p

theorem lost_check_both (lost : Lost p) (first second : String) : Lost (p.check_both first second).2 := by
  unfold check_both
  have found := lost_check_required lost first
  split
  · rename_i p₁ eq
    rw [eq] at found
    exact lost_check_required found second
  · rename_i p₁ eq
    rw [eq] at found
    exact found

theorem lost_process_dimension_def (lost : Lost p) : Lost (p.process_dimension_def name attrs).2 := by
  unfold process_dimension_def
  split
  · exact lost
  have checked := lost_check_both (lost.of_states rfl : Lost (p.transfer_xml_attrs attrs)) "name" "size"
  split
  · exact lost_dmr_error _ _
  · rename_i p₁ eq
    rw [eq] at checked
    split
    · exact lost_dmr_error _ _
    · exact checked.of_states rfl

theorem lost_process_enum_def (lost : Lost p) : Lost (p.process_enum_def name attrs).2 := by
  unfold process_enum_def
  split
  · exact lost
  have checked := lost_check_both (lost.of_states rfl : Lost (p.transfer_xml_attrs attrs)) "name" "basetype"
  split
  · exact lost_dmr_error _ _
  · rename_i p₁ eq
    rw [eq] at checked
    dsimp only
    split
    · exact checked.of_states rfl
    · exact lost_dmr_error _ _

theorem lost_process_enum_const (lost : Lost p) : Lost (p.process_enum_const name attrs).2 := by
  unfold process_enum_const
  split
  · exact lost
  have checked := lost_check_both (lost.of_states rfl : Lost (p.transfer_xml_attrs attrs)) "name" "value"
  split
  · exact lost_dmr_error _ _
  · rename_i p₁ eq
    rw [eq] at checked
    split
    · exact lost_dmr_error _ _
    · dsimp only
      split
      · exact checked.of_states rfl
      · exact lost_dmr_error _ _

/-- What comes of a callback, or of a part of one, has the error too. -/
def LostIn (r : Result Parser) : Prop := ∀ p', r = .ok p' → Lost p'

def LostInPair (r : Result (Bool × Parser)) : Prop := ∀ b p', r = .ok (b, p') → Lost p'

theorem LostIn.pure (lost : Lost p) : LostIn (.ok p) := by
  intro p' eq
  cases eq
  exact lost

theorem LostIn.error (e : Failure) : LostIn (.error e) := by
  intro p' eq
  cases eq

theorem LostIn.bind {α : Type} {r : Result α} {f : α → Result Parser} (each : ∀ a, r = .ok a → LostIn (f a)) :
    LostIn (r >>= f) := by
  cases r with
  | error e => exact LostIn.error e
  | ok a => exact each a rfl

theorem LostInPair.pure (lost : Lost p) : LostInPair (.ok (b, p)) := by
  intro b' p' eq
  cases eq
  exact lost

theorem LostInPair.error (e : Failure) : LostInPair (.error e) := by
  intro b p' eq
  cases eq

theorem LostInPair.bind {α : Type} {r : Result α} {f : α → Result (Bool × Parser)}
    (each : ∀ a, r = .ok a → LostInPair (f a)) : LostInPair (r >>= f) := by
  cases r with
  | error e => exact LostInPair.error e
  | ok a => exact each a rfl

theorem LostIn.of_pair {r : Result (Bool × Parser)} {f : Bool × Parser → Result Parser} (pair : LostInPair r)
    (each : ∀ b p, Lost p → LostIn (f (b, p))) : LostIn (r >>= f) :=
  .bind fun a eq => each a.1 a.2 (pair a.1 a.2 eq)

theorem lost_process_group (lost : Lost p) : LostInPair (p.process_group name attrs) := by
  unfold process_group
  split
  · exact .pure lost
  have checked := lost_check_required (lost.of_states rfl : Lost (p.transfer_xml_attrs attrs)) "name"
  split
  · exact .pure (lost_dmr_error _ _)
  · rename_i p₁ eq
    rw [eq] at checked
    exact .bind fun parent _ => .pure (checked.of_states rfl)

theorem lost_process_attribute (lost : Lost p) : LostInPair (p.process_attribute name attrs) := by
  unfold process_attribute
  split
  · exact .pure lost
  have checked := lost_check_both (lost.of_states rfl : Lost (p.transfer_xml_attrs attrs)) "name" "type"
  split
  · exact .pure (lost_dmr_error _ _)
  · rename_i p₁ eq
    rw [eq] at checked
    split
    · refine .bind fun tos _ => .pure ?_
      exact (checked.push rfl : Lost (p₁.push_state .inside_attribute_container)).of_states rfl
    · split
      · exact .pure ((checked.push rfl : Lost (p₁.push_state .inside_other_xml_attribute)).of_states rfl)
      · exact .pure ((checked.push rfl : Lost (p₁.push_state .inside_attribute)).of_states rfl)

theorem states_array_on_top {array : Name} {decl : Nat} (made : p.array_on_top = .ok (array, decl, p')) : p'.s = p.s := by
  unfold array_on_top at made
  cases stack : p.btp_stack with
  | nil =>
      rw [stack] at made
      cases made
  | cons btp rest =>
      rw [stack] at made
      simp only [top, pure, Except.pure, bind, Except.bind] at made
      split at made
      · cases made
        rfl
      · cases made

theorem lost_array_on_top (lost : Lost p) {array : Name} {decl : Nat} (made : p.array_on_top = .ok (array, decl, p')) :
    Lost p' := lost.of_states (states_array_on_top made)

theorem lost_process_dimension (lost : Lost p) : LostInPair (p.process_dimension name attrs) := by
  unfold process_dimension
  split
  · exact .pure lost
  dsimp only
  split
  · exact .pure (lost_dmr_error _ _)
  split
  · exact .pure (lost_dmr_error _ _)
  refine .bind ?_
  rintro ⟨array, decl, p₁⟩ made
  have transferred : Lost (p.transfer_xml_attrs attrs) := lost.of_states rfl
  have after := lost_array_on_top transferred made
  exact .bind fun d _ => .pure (after.of_states rfl)

theorem lost_process_map (lost : Lost p) : LostInPair (p.process_map name attrs) := by
  unfold process_map
  split
  · exact .pure lost
  dsimp only
  split
  · exact .pure (lost_dmr_error _ _)
  refine .bind ?_
  rintro ⟨array, decl, p₁⟩ made
  have transferred : Lost (p.transfer_xml_attrs attrs) := lost.of_states rfl
  have after := lost_array_on_top transferred made
  exact .bind fun m _ => .pure (after.of_states rfl)

theorem lost_set_enumeration (lost : Lost p) (t : Typ) (id : Nat) : LostIn (p.set_enumeration t id) := by
  unfold set_enumeration
  split
  · have checked := lost_check_required lost "enum"
    split
    · rename_i p₁ eq
      rw [eq] at checked
      exact .pure checked
    · rename_i p₁ eq
      rw [eq] at checked
      exact .bind fun e _ => .pure (checked.of_states rfl)
  · exact .pure lost

theorem lost_process_variable_helper (lost : Lost p) {t : Typ} {state : ParseState}
    (inner : state.isOuter = false) : LostIn (p.process_variable_helper t state attrs) := by
  unfold process_variable_helper
  have checked := lost_check_required (lost.of_states rfl : Lost (p.transfer_xml_attrs attrs)) "name"
  split
  · rename_i p₁ eq
    rw [eq] at checked
    exact .pure checked
  · rename_i p₁ eq
    rw [eq] at checked
    refine .bind fun q made => .pure ?_
    have lost' : Lost q := lost_set_enumeration (p := { p₁ with dmr := (p₁.dmr.NewVariable t (p₁.value "name")).2 })
      (checked.of_states rfl) t _ q made
    exact (lost'.push inner).of_states rfl

theorem inner_of_variable_state {t : Typ} {state : ParseState} (found : variable_state t = some state) :
    state.isOuter = false := by
  unfold variable_state at found
  split at found
  · cases found
    rfl
  · split at found
    · cases found
      rfl
    · cases found

theorem lost_process_variable (lost : Lost p) : LostInPair (p.process_variable name attrs) := by
  unfold process_variable
  split
  · exact .pure lost
  · rename_i state found
    exact .bind fun p₁ made => .pure (lost_process_variable_helper lost (inner_of_variable_state found) p₁ made)

theorem lost_start_in_group (lost : Lost p) : LostIn (p.start_in_group name attrs) := by
  unfold start_in_group
  have enum : Lost (p.process_enum_def name attrs).2 := lost_process_enum_def lost
  split
  · rename_i p₁ eq
    rw [eq] at enum
    exact .pure (enum.push rfl)
  rename_i p₁ eq
  rw [eq] at enum
  have dim : Lost (p₁.process_dimension_def name attrs).2 := lost_process_dimension_def enum
  split
  · rename_i p₂ eq
    rw [eq] at dim
    exact .pure (dim.push rfl)
  rename_i p₂ eq
  rw [eq] at dim
  refine .of_pair (lost_process_group dim) fun b p₃ lost => ?_
  cases b with
  | true => exact .pure (lost.push rfl)
  | false =>
      refine .of_pair (lost_process_variable lost) fun b p₄ lost => ?_
      cases b with
      | true => exact .pure lost
      | false =>
          refine .of_pair (lost_process_attribute lost) fun b p₅ lost => ?_
          cases b with
          | true => exact .pure lost
          | false => exact .pure (lost_unexpected _ _ _)

theorem lost_start_in_variable (lost : Lost p) (expected : String) :
    LostIn (p.start_in_variable expected name attrs) := by
  unfold start_in_variable
  refine .of_pair (lost_process_attribute lost) fun b p₁ lost => ?_
  cases b with
  | true => exact .pure lost
  | false =>
      refine .of_pair (lost_process_dimension lost) fun b p₂ lost => ?_
      cases b with
      | true => exact .pure (lost.push rfl)
      | false =>
          refine .of_pair (lost_process_map lost) fun b p₃ lost => ?_
          cases b with
          | true => exact .pure (lost.push rfl)
          | false => exact .pure (lost_unexpected _ _ _)

theorem lost_start_dataset (lost : Lost p) (localname : String) (URI : Option String) :
    LostIn (p.start_dataset localname URI attrs) := by
  have named : Lost (if is_not localname "Dataset" then
      p.dmr_error ("Expected DMR to start with a Dataset element; found '".toList ++ localname.toList ++
        "' instead.".toList) else p) := by
    split
    · exact lost_dmr_error _ p
    · exact lost
  unfold start_dataset
  have checked := lost_check_required (named.of_states rfl : Lost (transfer_xml_attrs attrs { (if is_not localname "Dataset"
    then p.dmr_error ("Expected DMR to start with a Dataset element; found '".toList ++ localname.toList ++
      "' instead.".toList) else p) with root_ns := URI.getD "" })) "name"
  exact .bind fun dmr _ => .pure ((checked.push rfl).of_states rfl : Lost _)

theorem lost_outside (lost : Lost p) {URI : Option String} {state : ParseState} (met : p.outside URI = .ok (state, p')) :
    Lost p' ∧ p'.s.head? = some state := by
  unfold outside at met
  cases stack : p.s with
  | nil =>
      rw [stack] at met
      cases met
  | cons first rest =>
      rw [stack] at met
      simp only [top, pure, Except.pure, bind, Except.bind] at met
      split at met
      · cases met
        exact ⟨lost.push rfl, rfl⟩
      · cases met
        exact ⟨lost, by rw [stack]; rfl⟩

theorem lost_start_element (lost : Lost p) (localname : String) (nsPrefix URI : Option String)
    (namespaces : List (String × String)) :
    LostIn (p.dmr_start_element localname nsPrefix URI namespaces attrs) := by
  unfold dmr_start_element
  refine .bind ?_
  rintro ⟨state, p₁⟩ met
  obtain ⟨lost, at_⟩ := lost_outside lost met
  cases state with
  | parser_start => exact lost_start_dataset lost localname URI
  | inside_dataset | inside_group => exact lost_start_in_group lost
  | inside_attribute_container =>
      refine .of_pair (lost_process_attribute lost) fun b p₂ lost => ?_
      cases b with
      | true => exact .pure lost
      | false => exact .pure (lost_unexpected _ _ _)
  | inside_attribute =>
      refine .of_pair (lost_process_attribute lost) fun b p₂ lost => ?_
      cases b with
      | true => exact .pure lost
      | false =>
          dsimp only
          split
          · exact .pure (lost.push rfl)
          · exact .pure (lost_unexpected _ _ _)
  | inside_other_xml_attribute =>
      refine .pure (lost.of_states ?_)
      unfold start_other_xml
      dsimp only
      split <;> split <;> rfl
  | inside_enum_def =>
      have found : Lost (p₁.process_enum_const localname attrs).2 := lost_process_enum_const lost
      dsimp only
      split
      · rename_i p₂ eq
        rw [eq] at found
        exact .pure (found.push rfl)
      · exact .pure (lost_unexpected _ _ _)
  | inside_simple_type => exact lost_start_in_variable lost _
  | inside_constructor =>
      refine .of_pair (lost_process_variable lost) fun b p₂ lost => ?_
      cases b with
      | true => exact .pure lost
      | false => exact lost_start_in_variable lost _
  | parser_unknown => exact .pure (lost.push rfl)
  | inside_attribute_value | inside_enum_const | inside_dim_def | inside_dim | inside_map | not_dap4_element
  | parser_error | parser_fatal_error | parser_end => exact .pure lost

/-- The state is on top, but for errors of the callback itself. -/
def OnTop (state : ParseState) (s : List ParseState) (p : Parser) : Prop :=
  ∃ errors : List ParseState, (∀ error ∈ errors, error.isError = true) ∧ p.s = errors ++ state :: s

variable {state : ParseState} {s : List ParseState}

theorem OnTop.here (stack : p.s = state :: s) : OnTop state s p := ⟨[], List.forall_mem_nil _, stack⟩

theorem OnTop.of_states (onTop : OnTop state s p) (same : p'.s = p.s) : OnTop state s p' := by
  obtain ⟨errors, each, stack⟩ := onTop
  exact ⟨errors, each, same.trans stack⟩

theorem OnTop.push (onTop : OnTop state s p) {error : ParseState} (isError : error.isError = true)
    (pushed : p'.s = error :: p.s) : OnTop state s p' := by
  obtain ⟨errors, each, stack⟩ := onTop
  exact ⟨error :: errors, List.forall_mem_cons.mpr ⟨isError, each⟩, pushed.trans (congrArg (error :: ·) stack)⟩

theorem OnTop.unless {named : Prop} [Decidable named] (onTop : OnTop state s p) (msg : Name) :
    OnTop state s (if named then p.dmr_error msg else p) := by
  split
  · exact onTop.push rfl rfl
  · exact onTop

theorem OnTop.unless_fatal {named : Prop} [Decidable named] (onTop : OnTop state s p) (msg : Name) :
    OnTop state s (if named then p.dmr_fatal_error msg else p) := by
  split
  · exact onTop.push rfl rfl
  · exact onTop

theorem OnTop.expect_end (onTop : OnTop state s p) (tag expected localname : String) :
    OnTop state s (p.expect_end tag expected localname) := onTop.unless _

/-- The callback takes one state from the stack. -/
theorem lost_pop (onTop : OnTop state s p) (inner : state.isOuter = false) (below : hasError s = true) :
    LostIn p.pop_state := by
  obtain ⟨errors, each, stack⟩ := onTop
  unfold pop_state
  rw [stack]
  cases errors with
  | nil => exact .pure below
  | cons error errors =>
      refine .pure ?_
      change hasError (errors ++ state :: s) = true
      cases errors with
      | nil =>
          rw [List.nil_append, hasError, inner, below, Bool.not_false, Bool.and_self, Bool.or_true]
      | cons error' errors =>
          have isError := each error' (List.mem_cons_of_mem _ List.mem_cons_self)
          rw [List.cons_append, hasError, isError, Bool.true_or]

theorem states_pop_attributes : ∀ p', p.pop_attributes = .ok p' → p'.s = p.s := by
  intro p' popped
  unfold pop_attributes at popped
  cases stack : p.d_attrs_stack with
  | nil =>
      rw [stack] at popped
      cases popped
  | cons =>
      rw [stack] at popped
      cases popped
      rfl

theorem states_pop_group : ∀ p', p.pop_group = .ok p' → p'.s = p.s := by
  intro p' popped
  unfold pop_group at popped
  cases stack : p.grp_stack with
  | nil =>
      rw [stack] at popped
      cases popped
  | cons =>
      rw [stack] at popped
      cases popped
      rfl

theorem states_add_value (value : Name) : ∀ p', p.add_value value = .ok p' → p'.s = p.s := by
  intro p' added
  unfold add_value at added
  cases stack : p.d_attrs_stack with
  | nil =>
      rw [stack] at added
      cases added
  | cons =>
      rw [stack] at added
      cases added
      rfl

theorem onTop_close_variable {add : BaseType → DMR → BaseType → Result (BaseType × DMR)} {localname : String}
    (closed : p.close_variable add localname = .ok p') (onTop : OnTop state s p) : OnTop state s p' := by
  unfold close_variable at closed
  cases stack : p.btp_stack with
  | nil =>
      rw [stack] at closed
      cases closed
  | cons btp rest =>
      rw [stack] at closed
      simp only [top, pure, Except.pure, bind, Except.bind] at closed
      split at closed
      · cases closed
      · rename_i p₁ popped
        have states : p₁.s = p.s := states_pop_attributes (p := { p with btp_stack := rest }) _ popped
        split at closed
        · split at closed
          · cases closed
          · cases closed
            exact onTop.of_states states
        · cases closed
          exact onTop.of_states states
        · cases closed
          exact onTop.push rfl (congrArg (ParseState.parser_fatal_error :: ·) states)

theorem lost_end_in_other_xml (lost : Lost p) (localname : String) (nsPrefix : Option String) :
    Lost (p.end_in_other_xml localname nsPrefix) := by
  unfold end_in_other_xml
  split
  · exact lost_dmr_error _ _
  · exact lost.of_states rfl

theorem lost_end_other_xml (lost : Lost p) (stack : p.s = .inside_other_xml_attribute :: s) (below : hasError s = true)
    (localname : String) (nsPrefix URI : Option String) : LostIn (p.end_other_xml localname nsPrefix URI) := by
  have inside : ∀ p₁, p.pop_state = .ok p₁ → Lost p₁ := lost_pop (.here stack) rfl below
  unfold end_other_xml
  split
  · split
    · exact .error _
    · split
      · refine .bind fun p₁ popped => .bind fun p₂ added => .pure ?_
        exact (inside p₁ popped).of_states (states_add_value _ p₂ added)
      · exact .pure (lost_end_in_other_xml lost localname nsPrefix)
  · exact .pure (lost_end_in_other_xml lost localname nsPrefix)

theorem lost_end_element (lost : Lost p) (localname : String) (nsPrefix URI : Option String) :
    LostIn (p.dmr_end_element localname nsPrefix URI) := by
  unfold dmr_end_element
  cases stack : p.s with
  | nil => exact .error _
  | cons state s =>
      have onTop : OnTop state s p := .here stack
      have below : state.isError = false → hasError s = true := by
        intro other
        rw [Lost, stack, hasError, other, Bool.false_or, Bool.and_eq_true] at lost
        exact lost.2
      have expected := onTop.expect_end
      refine .bind fun first met => ?_
      cases met
      cases state with
      | parser_start => exact .pure (lost_dmr_fatal_error _ _)
      | inside_dataset =>
          refine .bind fun p₁ popped => ?_
          have lost₁ : Lost p₁ := lost_pop (expected _ _ _) rfl (below rfl) p₁ popped
          cases stack₁ : p₁.s with
          | nil =>
              rw [Lost, stack₁] at lost₁
              cases lost₁
          | cons first rest =>
              refine .bind fun met popped' => ?_
              cases popped'
              split
              · exact .pure (lost_dmr_fatal_error _ _)
              · rename_i outer
                have start : first = .parser_start := not_not.mp outer
                rw [Lost, stack₁, start] at lost₁
                cases lost₁
      | inside_group =>
          exact .bind fun p₁ popped =>
            lost_pop (((expected _ _ _).unless _).of_states (states_pop_group _ popped)) rfl (below rfl)
      | inside_attribute_container =>
          refine .bind fun p₁ popped => ?_
          exact fun p₂ popped' => (lost_pop (expected _ _ _) rfl (below rfl) p₁ popped).of_states
            (states_pop_attributes p₂ popped')
      | inside_attribute => exact lost_pop (expected _ _ _) rfl (below rfl)
      | inside_attribute_value =>
          refine .bind fun p₁ popped => .bind fun p₂ added => .pure ?_
          exact (lost_pop (expected _ _ _) rfl (below rfl) p₁ popped).of_states (states_add_value _ p₂ added)
      | inside_other_xml_attribute => exact lost_end_other_xml lost stack (below rfl) localname nsPrefix URI
      | inside_enum_def =>
          exact .bind fun group _ => lost_pop ((expected _ _ _).of_states rfl) rfl (below rfl)
      | inside_enum_const => exact lost_pop (expected _ _ _) rfl (below rfl)
      | inside_dim_def =>
          exact .bind fun group _ => lost_pop ((expected _ _ _).of_states rfl) rfl (below rfl)
      | inside_simple_type =>
          dsimp only
          split
          · exact .bind fun p₁ closed => lost_pop (onTop_close_variable closed onTop) rfl (below rfl)
          · exact lost_pop (onTop.push rfl rfl) rfl (below rfl)
      | inside_dim | inside_map => exact lost_pop (onTop.unless_fatal _) rfl (below rfl)
      | inside_constructor =>
          dsimp only
          split
          · exact .pure (lost_unexpected _ _ _)
          · exact .bind fun p₁ closed => lost_pop (onTop_close_variable closed onTop) rfl (below rfl)
      | not_dap4_element | parser_unknown => exact lost_pop onTop rfl (below rfl)
      | parser_error | parser_fatal_error | parser_end => exact .pure lost

/-- No callback loses an error that was there before. -/
theorem lost_handle (lost : Lost p) (event : Event) : LostIn (p.handle event) := by
  cases event with
  | startElement localname nsPrefix URI namespaces attributes =>
      exact lost_start_element lost localname nsPrefix URI namespaces
  | endElement localname nsPrefix URI => exact lost_end_element lost localname nsPrefix URI
  | characters ch =>
      refine .pure ?_
      unfold dmr_get_characters
      split
      · exact lost.of_states rfl
      · exact lost.of_states rfl
      · exact lost
  | ignorableWhitespace ch =>
      refine .pure ?_
      unfold dmr_ignoreable_whitespace
      split
      · exact lost.of_states rfl
      · exact lost
  | cdataBlock value =>
      refine .pure ?_
      unfold dmr_get_cdata
      split
      · exact lost.of_states rfl
      · exact lost
      · exact lost_dmr_error _ _
  | error message => exact .pure (lost_dmr_error _ _)
  | fatalError message => exact .pure (lost_dmr_fatal_error _ _)

/-- There is no DMR when a parser is lost at the end of the document. -/
theorem Lost.no_dmr (lost : Lost p) (dmr : DMR) : p.dmr_end_document.bind cleanup_parse ≠ .ok dmr := by
  cases stack : p.s with
  | nil =>
      rw [Lost, stack] at lost
      cases lost
  | cons state s =>
      have other : state ≠ .parser_end := by
        rintro rfl
        rw [Lost, stack] at lost
        cases lost
      have ended : p.dmr_end_document = .ok (p.dmr_error "The document contained unbalanced tags.".toList) := by
        unfold dmr_end_document
        rw [stack]
        simp only [top, pure_bind, ne_eq, other, not_false_eq_true, if_true]
        rfl
      rw [ended]
      intro same
      cases same

/-- Whatever is read behind an error, the document does not become a DMR. -/
theorem no_dmr_after_error {strict : Bool} {dmr : DMR} {before : List Event}
    (read : before.foldlM handle (start strict dmr).dmr_start_document = .ok p) (lost : Lost p) (later : List Event)
    (dmr' : DMR) : intern strict dmr (before ++ later) ≠ .ok dmr' := by
  unfold intern
  rw [List.foldlM_append, read]
  change ((later.foldlM handle p).bind fun p => p.dmr_end_document.bind cleanup_parse) ≠ _
  cases run : later.foldlM handle p with
  | error e =>
      intro same
      cases same
  | ok p' =>
      have kept : ∀ s i t, Lost s → handle s i = .ok t → Lost t := fun s i t lost taken => lost_handle lost i t taken
      exact (lost_of_run kept lost run).no_dmr dmr'

/-- The `Dataset` has no name. -/
theorem no_dmr_of_unnamed_dataset :
    intern true DMR.new
      ([.startElement "Dataset" none (some DMR.c_dap40_namespace) [] []] ++
        [.characters ['\n'], .endElement "Dataset" none (some DMR.c_dap40_namespace)]) ≠ .ok DMR.new :=
  no_dmr_after_error rfl (by rfl) _ _

end Parser

end Libdap.Dap4.Dmr
