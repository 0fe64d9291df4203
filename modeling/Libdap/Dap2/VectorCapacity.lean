import Libdap.Dap2.Vector

/-! # The capacity of a vector

After every call the capacity should be at most the number of elements that the
place in use has. Each call that sets it keeps this up exactly under a condition
on the vector before it and the arguments.
-/

namespace Libdap.Dap2

open Ints

namespace Vector

variable {α : Type}

/-- The elements that are present in the place where a vector of this type keeps its values. -/
def elements (v : Vector α) : Nat :=
  match v.stored with
  | some c => (v.buf.map List.length).getD 0 / c.width
  | none => if (v.proto.map ElementType.isString).getD false then v.str.length else v.compoundBuf.length

/-- The capacity is honest, and only cardinals are kept in the buffer. -/
structure Sound (v : Vector α) : Prop where
  honest : v.capacity ≤ v.elements
  own : v.buf ≠ none → v.stored ≠ none

theorem stored_of_isString {t : ElementType} (isString : t.isString = true) : t.stored = none := by
  cases t <;> first | rfl | cases isString

theorem stored_of_strings {v : Vector α} (strings : (v.proto.map ElementType.isString).getD false = true) :
    v.stored = none := by
  cases proto : v.proto with
  | none => rw [proto] at strings; cases strings
  | some t =>
      rw [proto] at strings
      rw [stored, proto]
      exact stored_of_isString strings

theorem elements_of_stored {v : Vector α} {c : Cardinal} (stored : v.stored = some c) :
    v.elements = (v.buf.map List.length).getD 0 / c.width := by
  rw [elements, stored]

theorem elements_of_strings {v : Vector α} (strings : (v.proto.map ElementType.isString).getD false = true) :
    v.elements = v.str.length := by
  simp only [elements, stored_of_strings strings, strings, ↓reduceIte]

theorem elements_of_compound {v : Vector α} (stored : v.stored = none)
    (strings : (v.proto.map ElementType.isString).getD false = false) : v.elements = v.compoundBuf.length := by
  rw [elements, stored]
  simp only [strings, Bool.false_eq_true, ↓reduceIte]

theorem proto_of_stored {v : Vector α} {c : Cardinal} (stored : v.stored = some c) :
    ∃ t, v.proto = some t ∧ t.stored = some c := Option.bind_eq_some_iff.mp stored

theorem ofProto_sound (proto : Option ElementType) : (ofProto proto : Vector α).Sound :=
  ⟨Nat.zero_le _, fun some_ => absurd rfl some_⟩

/-- The storage after `m_create_cardinal_data_buffer_for_type`. -/
def withBuffer (v : Vector α) (c : Cardinal) (n : Nat) : Vector α :=
  { v with buf := if n = 0 then none else some (List.replicate (u32 ((c.width * n : Nat) : Int)) 0), capacity := n }

theorem create_eq {v : Vector α} {c : Cardinal} (stored : v.stored = some c) (n : Nat) :
    v.m_create_cardinal_data_buffer_for_type n = .done (v.withBuffer c n) := by
  obtain ⟨t, proto, cardinal⟩ := proto_of_stored stored
  obtain ⟨length, _, buf, compoundBuf, str, capacity, readP⟩ := v
  obtain rfl := proto
  simp only [m_create_cardinal_data_buffer_for_type, cardinal, withBuffer, m_delete_cardinal_data_buffer]
  split
  · rename_i zero
    rw [zero]
  · rfl

theorem length_withBuffer (v : Vector α) (c : Cardinal) (n : Nat) :
    ((v.withBuffer c n).buf.map List.length).getD 0 = u32 ((c.width * n : Nat) : Int) := by
  unfold withBuffer
  split
  · rename_i zero
    rw [zero]
    rfl
  · exact List.length_replicate

theorem withBuffer_sound_iff {v : Vector α} {c : Cardinal} (stored : v.stored = some c) (n : Nat) :
    (v.withBuffer c n).Sound ↔ c.width * n < 2 ^ 32 := by
  have stored' : (v.withBuffer c n).stored = some c := stored
  have own : (v.withBuffer c n).buf ≠ none → (v.withBuffer c n).stored ≠ none := by
    intro _ none
    rw [stored'] at none
    cases none
  have honest : (v.withBuffer c n).capacity ≤ (v.withBuffer c n).elements ↔ c.width * n < 2 ^ 32 := by
    rw [elements_of_stored stored', length_withBuffer, u32_ofNat, Nat.le_div_iff_mul_le c.width_pos]
    have product : (v.withBuffer c n).capacity * c.width = c.width * n := Nat.mul_comm n c.width
    rw [product]
    constructor
    · intro le
      exact lt_of_le_of_lt le (Nat.mod_lt _ (by decide))
    · intro lt
      rw [Nat.mod_eq_of_lt lt]
  exact ⟨fun sound => honest.mp sound.honest, fun lt => ⟨honest.mpr lt, own⟩⟩

theorem length_memcpy {buf buf' : Option (List UInt8)} {offset : Nat} {from_ : List UInt8}
    (ok : memcpy buf offset from_ = some buf') : buf'.map List.length = buf.map List.length := by
  unfold memcpy at ok
  split at ok
  · rw [Option.some.inj ok]
  · split at ok
    · cases ok
    · rename_i b
      split at ok
      · rename_i fits
        obtain rfl := Option.some.inj ok
        simp only [Option.map_some, List.length_append, List.length_take, List.length_drop]
        congr 1
        omega
      · cases ok

theorem elements_congr {v v' : Vector α} (proto : v'.proto = v.proto)
    (buf : v'.buf.map List.length = v.buf.map List.length) (str : v'.str.length = v.str.length)
    (compound : v'.compoundBuf.length = v.compoundBuf.length) : v'.elements = v.elements := by
  simp only [elements, stored, proto, buf, str, compound]

theorem sound_congr {v v' : Vector α} (proto : v'.proto = v.proto)
    (buf : v'.buf.map List.length = v.buf.map List.length) (str : v'.str.length = v.str.length)
    (compound : v'.compoundBuf.length = v.compoundBuf.length) (capacity : v'.capacity = v.capacity) :
    v'.Sound ↔ v.Sound := by
  have same := elements_congr proto buf str compound
  have null : v'.buf = none ↔ v.buf = none := by
    rw [← Option.map_eq_none_iff (f := List.length), buf, Option.map_eq_none_iff]
  have stored_ : v'.stored = v.stored := by simp only [stored, proto]
  constructor
  · rintro ⟨honest, own⟩
    exact ⟨same ▸ capacity ▸ honest, fun some_ => stored_ ▸ own (fun none => some_ (null.mp none))⟩
  · rintro ⟨honest, own⟩
    exact ⟨by rw [same, capacity]; exact honest, fun some_ => by
      rw [stored_]
      exact own fun none => some_ (null.mpr none)⟩

/-- Filling the buffer replaces its bytes and nothing else. -/
theorem fillBuf_ok {v v' : Vector α} {from_ : List UInt8} (ok : (v.fillBuf from_).state = some v') :
    v.fillBuf from_ = .done v' ∧ ∃ buf, v' = { v with buf } ∧ buf.map List.length = v.buf.map List.length := by
  unfold fillBuf at ok ⊢
  cases copied : memcpy v.buf 0 from_ with
  | none => rw [copied] at ok; cases ok
  | some buf =>
      rw [copied] at ok
      obtain rfl := Option.some.inj ok
      exact ⟨rfl, buf, rfl, length_memcpy copied⟩

theorem fillBuf_sound_iff {v v' : Vector α} {from_ : List UInt8} (ok : (v.fillBuf from_).state = some v') :
    v'.Sound ↔ v.Sound := by
  obtain ⟨-, buf, rfl, length⟩ := fillBuf_ok ok
  exact sound_congr rfl length rfl rfl rfl

/-- A reservation is for what there is: bytes are counted with 32 bits, and the strings and
    variables that a `reserve` makes room for are not there yet. -/
def Reserves (v : Vector α) (n : Nat) : Prop :=
  match v.proto with
  | none | some .dods_array_c => True
  | some proto =>
    match proto.stored with
    | some c => c.width * n < 2 ^ 32
    | none => n ≤ v.elements

theorem reserve_sound_iff {v v' : Vector α} {n : Nat} (sound : v.Sound)
    (ok : (v.reserve_value_capacity n).state = some v') : v'.Sound ↔ v.Reserves n := by
  have buffered {c : Cardinal} (stored : v.stored = some c)
      (ok : (v.m_create_cardinal_data_buffer_for_type n).state = some v') :
      v'.Sound ↔ c.width * n < 2 ^ 32 := by
    rw [create_eq stored] at ok
    obtain rfl := Option.some.inj ok
    exact withBuffer_sound_iff stored n
  have recorded (ok : some { v with capacity := n } = some v') : v'.Sound ↔ n ≤ v.elements := by
    obtain rfl := Option.some.inj ok
    have own : v.buf ≠ none → v.stored ≠ none := sound.own
    exact ⟨fun sound => sound.honest, fun le => ⟨le, own⟩⟩
  have kept (ok : some v = some v') : v'.Sound ↔ True := iff_of_true (Option.some.inj ok ▸ sound) trivial
  obtain ⟨length, proto, buf, compoundBuf, str, capacity, readP⟩ := v
  cases proto with
  | none => exact kept ok
  | some t =>
      cases t with
      | cardinal c => exact buffered rfl ok
      | dods_enum_c c => exact buffered rfl ok
      | dods_array_c => exact kept ok
      | dods_str_c | dods_url_c | dods_opaque_c | dods_structure_c | dods_sequence_c | dods_grid_c =>
          exact recorded ok

theorem fits_of_memcpy {buf buf' : Option (List UInt8)} {offset : Nat} {from_ : List UInt8}
    (some_ : from_ ≠ []) (ok : memcpy buf offset from_ = some buf') :
    offset + from_.length ≤ (buf.map List.length).getD 0 := by
  unfold memcpy at ok
  rw [if_neg some_] at ok
  cases buf with
  | none => cases ok
  | some b =>
      simp only at ok
      split at ok
      · rename_i fits
        exact fits
      · cases ok

theorem fillBuf_fits {v v' : Vector α} {from_ : List UInt8} (ok : (v.fillBuf from_).state = some v') :
    from_.length ≤ (v.buf.map List.length).getD 0 := by
  unfold fillBuf at ok
  cases copied : memcpy v.buf 0 from_ with
  | none => rw [copied] at ok; cases ok
  | some buf =>
      by_cases empty : from_ = []
      · rw [empty]
        exact Nat.zero_le _
      · have fits := fits_of_memcpy empty copied
        omega

theorem u32_le {x : Int} (nonneg : 0 ≤ x) : u32 x ≤ x.toNat := by
  simp only [u32]
  omega

theorem length_read {β : Type} (at_ : Nat → β) (n : Nat) : (Memory.read at_ n).length = n := by
  rw [Memory.read, List.length_map, List.length_range]

theorem andThen_state {o : Outcome (Vector α)} {f : Vector α → Outcome (Vector α)} {v' : Vector α}
    (ok : (o.andThen f).state = some v') :
    (∃ v, o = .done v ∧ (f v).state = some v') ∨ ∃ message, o = .threw v' message := by
  cases o with
  | done v => exact .inl ⟨v, rfl, ok⟩
  | threw v message => exact .inr ⟨message, by rw [Option.some.inj ok]⟩
  | undefined => cases ok

theorem state_of_done {σ : Type} {o : Outcome σ} {s : σ} (done : o = .done s) : o.state = some s := by
  rw [done]
  rfl

theorem state_of_threw {σ : Type} {o : Outcome σ} {s : σ} {message : String} (threw : o = .threw s message) :
    o.state = some s := by
  rw [threw]
  rfl

theorem set_cardinal_values_sound {v v' : Vector α} {c : Cardinal} {fromArray : Nat → UInt8} {n : Int}
    {own : Cardinal} (stored : v.stored = some own) (width : own.width = c.width) (sound : v.Sound)
    (ok : (v.m_set_cardinal_values_internal c fromArray n).state = some v') : v'.Sound := by
  unfold m_set_cardinal_values_internal at ok
  split at ok
  · rw [← Option.some.inj ok]
    exact sound
  · rename_i negative
    have stored : (v.set_length n).stored = some own := stored
    rw [create_eq stored, Outcome.andThen] at ok
    obtain ⟨filled, done, ok⟩ | ⟨_, threw⟩ := andThen_state ok
    · have same := fillBuf_sound_iff (state_of_done done)
      have sound' : v'.Sound ↔ filled.Sound := by
        rw [← Option.some.inj ok]
        exact sound_congr rfl rfl rfl rfl rfl
      rw [sound', same, withBuffer_sound_iff stored]
      have fits : n.toNat * c.width ≤ u32 ((own.width * u32 n : Nat) : Int) := by
        have fits := fillBuf_fits (state_of_done done)
        rw [length_withBuffer, length_read] at fits
        exact fits
      have few : u32 n ≤ n.toNat := u32_le (by omega)
      calc own.width * u32 n
          ≤ n.toNat * c.width := by rw [width, Nat.mul_comm]; exact Nat.mul_le_mul_right _ few
        _ ≤ _ := fits
        _ < 2 ^ 32 := u32_lt _
    · have filled := (fillBuf_ok (state_of_threw threw)).1
      rw [filled] at threw
      cases threw

theorem set_value_sound {v v' : Vector α} {c : Cardinal} {val : Option (Nat → UInt8)} {sz : Int} (sound : v.Sound)
    (ok : (v.set_value c val sz).state = some v') : v'.Sound := by
  unfold set_value at ok
  split at ok
  · exact Option.some.inj ok ▸ sound
  · cases ok
  · rename_i fromArray proto same
    split at ok
    · rename_i matching
      obtain ⟨own, cardinal, cppType⟩ := Option.map_eq_some_iff.mp matching
      have stored : v.stored = some own := by rw [stored, same]; exact cardinal
      have width : own.width = c.width := by rw [← own.width_cppType, cppType, c.width_cppType]
      exact set_cardinal_values_sound stored width sound ok
    · exact Option.some.inj ok ▸ sound

theorem sound_of_isString {v : Vector α} {t : ElementType} (proto : v.proto = some t) (isString : t.isString = true)
    (own : v.buf ≠ none → v.stored ≠ none) (le : v.capacity ≤ v.str.length) : v.Sound :=
  ⟨by rw [elements_of_strings (by rw [proto]; exact isString)]; exact le, own⟩

theorem set_value_str_sound {v v' : Vector α} {val : Option (Nat → String)} {sz : Int} (sound : v.Sound)
    (ok : (v.set_value_str val sz).state = some v') : v'.Sound := by
  unfold set_value_str at ok
  split at ok
  · cases ok
  · exact Option.some.inj ok ▸ sound
  · rename_i proto at_ same
    split at ok
    · rename_i isString
      split at ok
      · exact Option.some.inj ok ▸ sound
      · rename_i negative
        obtain rfl := Option.some.inj ok
        refine sound_of_isString same isString sound.own ?_
        rw [length_read]
        exact u32_le (by omega)
    · exact Option.some.inj ok ▸ sound

/-- Storage that has to be made for the values is counted with 32 bits. -/
def Converts (v : Vector α) (val : Option Memory) (reuse : Bool) : Prop :=
  val = none ∨ (v.buf ≠ none ∧ reuse = true) ∨ ∀ c, v.stored = some c → c.width * u32 v.length < 2 ^ 32

theorem val2buf_of_stored {v : Vector α} {c : Cardinal} (stored : v.stored = some c) (at_ : Nat → UInt8)
    (reuse : Bool) : v.val2buf (some (.bytes at_)) reuse =
      (if v.buf.isNone ∨ reuse = false then v.withBuffer c (u32 v.length) else v).fillBuf
        (Memory.read at_ v.width) := by
  obtain ⟨t, proto, cardinal⟩ := proto_of_stored stored
  simp only [val2buf, proto, cardinal]
  split
  · rw [create_eq stored]
    rfl
  · rfl

theorem val2buf_fresh {v w : Vector α} {c : Cardinal} (stored : v.stored = some c) {at_ : Nat → UInt8}
    (ok : (v.val2buf (some (.bytes at_)) false).state = some w) :
    v.val2buf (some (.bytes at_)) false = .done w ∧ ∃ buf, w = { v.withBuffer c (u32 v.length) with buf } ∧
      buf.map List.length = (v.withBuffer c (u32 v.length)).buf.map List.length := by
  rw [val2buf_of_stored stored, if_pos (.inr rfl)] at ok ⊢
  exact fillBuf_ok ok

theorem val2buf_sound_iff {v v' : Vector α} {val : Option Memory} {reuse : Bool} (sound : v.Sound)
    (ok : (v.val2buf val reuse).state = some v') : v'.Sound ↔ v.Converts val reuse := by
  cases val with
  | none =>
      have same : v' = v := by
        simp only [val2buf] at ok
        split at ok
        · exact (Option.some.inj ok).symm
        · exact (Option.some.inj ok).symm
      exact iff_of_true (same ▸ sound) (.inl rfl)
  | some val =>
      cases stored : v.stored with
      | some c =>
          cases val with
          | strings at_ =>
              obtain ⟨t, proto, cardinal⟩ := proto_of_stored stored
              simp only [val2buf, proto, cardinal] at ok
              cases ok
          | bytes at_ =>
              rw [val2buf_of_stored stored] at ok
              rw [fillBuf_sound_iff ok]
              split
              · rename_i fresh
                rw [withBuffer_sound_iff stored]
                constructor
                · rintro lt
                  refine .inr (.inr fun c' stored' => ?_)
                  obtain rfl := Option.some.inj (stored.symm.trans stored')
                  exact lt
                · rintro (none | ⟨present, reused⟩ | lt)
                  · cases none
                  · obtain none | kept := fresh
                    · exact absurd (Option.isNone_iff_eq_none.mp none) present
                    · rw [reused] at kept; cases kept
                  · exact lt c stored
              · rename_i kept
                refine iff_of_true sound (.inr (.inl ?_))
                rw [not_or] at kept
                exact ⟨fun none => kept.1 (Option.isNone_iff_eq_none.mpr none), Bool.eq_true_of_not_eq_false kept.2⟩
      | none =>
          refine iff_of_true ?_ (.inr (.inr fun c stored' => by cases stored.symm.trans stored'))
          simp only [val2buf] at ok
          split at ok
          · cases ok
          · rename_i t proto
            have cardinal : t.stored = none := by rw [Vector.stored, proto] at stored; exact stored
            simp only [cardinal] at ok
            split at ok
            · rename_i isString
              split at ok
              · exact Option.some.inj ok ▸ sound
              · rename_i negative
                cases val with
                | bytes at_ => cases ok
                | strings at_ =>
                    obtain rfl := Option.some.inj ok
                    refine sound_of_isString proto isString sound.own ?_
                    rw [length_read]
                    exact u32_le (by omega)
            · exact Option.some.inj ok ▸ sound

/-- The capacity of a vector of strings is not for the elements that a resize makes room for. -/
def Resizes (v : Vector α) (l : Int) : Prop :=
  (v.proto.map ElementType.isString).getD false = true → l ≤ v.str.length

theorem length_resize {β : Type} (l : List β) (n : Nat) (fill : β) : (resize l n fill).length = n := by
  rw [resize, List.length_append, List.length_take, List.length_replicate]
  omega

/-- The vector after a resize. -/
def resized (v : Vector α) (l : Nat) : Vector α :=
  { v with compoundBuf := resize v.compoundBuf l none, capacity := l }

theorem vec_resize_eq {v : Vector α} {l : Int} (stored : v.stored = none) (nonneg : 0 ≤ l) :
    v.vec_resize l = .done (v.resized l.toNat) := by
  have kind : v.m_is_cardinal_type = false := by rw [m_is_cardinal_type, stored]; rfl
  rw [vec_resize, kind, if_neg (by decide), if_neg (by omega), resized]

theorem resized_sound_iff {v : Vector α} {l : Nat} (sound : v.Sound) (stored : v.stored = none) :
    (v.resized l).Sound ↔ v.Resizes l := by
  have own : (v.resized l).buf ≠ none → (v.resized l).stored ≠ none := sound.own
  have stored : (v.resized l).stored = none := stored
  cases strings : (v.proto.map ElementType.isString).getD false with
  | true =>
      have strings' : ((v.resized l).proto.map ElementType.isString).getD false = true := strings
      have elements : (v.resized l).elements = v.str.length := elements_of_strings strings'
      have honest : (v.resized l).capacity ≤ (v.resized l).elements ↔ v.Resizes l := by
        rw [elements, Resizes, strings]
        exact ⟨fun le _ => Int.ofNat_le.mpr le, fun resizes => Int.ofNat_le.mp (resizes rfl)⟩
      exact ⟨fun sound => honest.mp sound.honest, fun resizes => ⟨honest.mpr resizes, own⟩⟩
  | false =>
      have strings' : ((v.resized l).proto.map ElementType.isString).getD false = false := strings
      have elements : (v.resized l).elements = l :=
        (elements_of_compound stored strings').trans (length_resize v.compoundBuf l none)
      exact iff_of_true ⟨elements.ge, own⟩ fun true_ => by rw [strings] at true_; cases true_

theorem vec_resize_sound_iff {v v' : Vector α} {l : Int} (sound : v.Sound)
    (ok : (v.vec_resize l).state = some v') : v'.Sound ↔ v.Resizes l := by
  cases stored : v.stored with
  | some c =>
      have kind : v.m_is_cardinal_type = true := by rw [m_is_cardinal_type, stored]; rfl
      rw [vec_resize, kind, if_pos rfl] at ok
      refine iff_of_true (Option.some.inj ok ▸ sound) fun strings => ?_
      rw [stored_of_strings strings] at stored
      cases stored
  | none =>
      by_cases negative : l < 0
      · have kind : v.m_is_cardinal_type = false := by rw [m_is_cardinal_type, stored]; rfl
        rw [vec_resize, kind, if_neg (by decide), if_pos negative] at ok
        exact iff_of_true (Option.some.inj ok ▸ sound) fun _ => by omega
      · rw [vec_resize_eq stored (by omega)] at ok
        obtain rfl := Option.some.inj ok
        rw [resized_sound_iff sound stored, Int.toNat_of_nonneg (by omega)]

section

variable (type : α → ElementType)

/-- An element past the end makes the vector longer by a hundred. -/
def Grows (v : Vector α) (i : Nat) (val : Option α) : Prop :=
  ∀ b t, val = some b → v.proto = some t → (type b).sameType t = true → i < u32 v.length →
    v.compoundBuf.length ≤ i → v.Resizes (i32 (v.compoundBuf.length + 100 : Nat))

variable {type}

theorem set_vec_nocopy_sound_iff {v v' : Vector α} {i : Nat} {val : Option α} (sound : v.Sound)
    (ok : (v.set_vec_nocopy type i val).state = some v') : v'.Sound ↔ v.Grows type i val := by
  have placed {w : Vector α} {b : α} (ok : (if i < w.compoundBuf.length then
      Outcome.done { w with compoundBuf := w.compoundBuf.set i (some b) } else .undefined).state = some v') :
      v'.Sound ↔ w.Sound := by
    split at ok
    · rw [← Option.some.inj ok]
      exact sound_congr rfl rfl rfl (List.length_set ..) rfl
    · cases ok
  unfold set_vec_nocopy at ok
  split at ok
  · rename_i beyond
    exact iff_of_true (Option.some.inj ok ▸ sound) fun b t _ _ _ lt => absurd lt (by omega)
  · rename_i within
    cases val with
    | none => exact iff_of_true (Option.some.inj ok ▸ sound) fun b t none => by cases none
    | some b =>
        cases proto : v.proto with
        | none => simp only [proto] at ok; cases ok
        | some t =>
            simp only [proto] at ok
            cases same : (type b).sameType t with
            | false =>
                rw [if_neg (by rw [same]; decide)] at ok
                exact iff_of_true (Option.some.inj ok ▸ sound) fun b' t' b_ t_ same' => by
                  cases b_
                  cases proto.symm.trans t_
                  rw [same] at same'
                  cases same'
            | true =>
                rw [if_pos same] at ok
                split at ok
                · rename_i short
                  have grows : v.Grows type i (some b) ↔ v.Resizes (i32 (v.compoundBuf.length + 100 : Nat)) :=
                    ⟨fun grows => grows b t rfl proto same (by omega) short, fun resizes _ _ _ _ _ _ _ => resizes⟩
                  rw [grows]
                  obtain ⟨w, done, ok⟩ | ⟨message, threw⟩ := andThen_state ok
                  · rw [placed ok]
                    exact vec_resize_sound_iff sound (state_of_done done)
                  · exact vec_resize_sound_iff sound (state_of_threw threw)
                · rename_i long
                  rw [placed ok]
                  exact iff_of_true sound fun _ _ _ _ _ _ short => absurd short long

end

theorem u32_mul_u32 (w : Nat) (x : Int) : u32 ((w * u32 x : Nat) : Int) = u32 (x * w) := by
  have nonneg : 0 ≤ x % 2 ^ 32 := Int.emod_nonneg x (by decide)
  unfold u32
  rw [Nat.cast_mul, Int.toNat_of_nonneg nonneg, Int.mul_emod, Int.emod_emod, ← Int.mul_emod, Int.mul_comm]

theorem length_copyElements {elements copies : List (Option α)} {n : Nat}
    (ok : copyElements elements n = some copies) : copies.length = n := by
  unfold copyElements at ok
  split at ok
  · rename_i all
    rw [← Option.some.inj ok, List.length_take, Nat.min_eq_left all.1]
  · cases ok

/-- The storage of a copy is for the length, and its capacity is that of the vector copied. -/
structure Duplicates (v : Vector α) : Prop where
  bytes : ∀ c, v.stored = some c → v.buf ≠ none → v.capacity * c.width ≤ v.width
  compound : v.stored = none → (v.proto.map ElementType.isString).getD false = false → v.compoundBuf ≠ [] →
    (v.capacity : Int) ≤ v.length

/-- What a vector has of the one it was copied from. -/
structure Duplicate (v v' : Vector α) : Prop where
  proto : v'.proto = v.proto
  capacity : v'.capacity = v.capacity
  str : v'.str = v.str
  compound : v'.compoundBuf.length = if v.compoundBuf = [] then 0 else v.length.toNat
  signed : v.compoundBuf ≠ [] → 0 ≤ v.length
  bytes : (v.buf = none ∧ v'.buf = none) ∨ ∃ c, v.buf ≠ none ∧ v.stored = some c ∧
    v'.buf.map List.length = (v.withBuffer c (u32 v.length)).buf.map List.length

/-- A copy is made, or refused with a vector left that has only the type and the length of the other. -/
theorem m_duplicate_state {this v v' : Vector α} (sound : v.Sound) (ok : (m_duplicate this v).state = some v') :
    ((v.compoundBuf ≠ [] ∧ v.length < 0) ∧ m_duplicate this v = .threw v' lengthError ∧
      v' = { this with length := v.length, proto := v.proto, readP := v.readP }) ∨
    (¬(v.compoundBuf ≠ [] ∧ v.length < 0) ∧ m_duplicate this v = .done v' ∧ Duplicate v v') := by
  unfold m_duplicate at ok ⊢
  simp only at ok ⊢
  by_cases refused : v.compoundBuf ≠ [] ∧ v.length < 0
  · rw [if_pos refused] at ok ⊢
    obtain rfl := Option.some.inj ok
    exact .inl ⟨refused, rfl, rfl⟩
  · rw [if_neg refused] at ok ⊢
    have signed : v.compoundBuf ≠ [] → 0 ≤ v.length := fun some_ => not_lt.mp fun negative => refused ⟨some_, negative⟩
    refine .inr ⟨refused, ?_⟩
    cases copied : copyElements v.compoundBuf (if v.compoundBuf = [] then 0 else v.length.toNat) with
    | none => rw [copied] at ok; cases ok
    | some compoundBuf =>
        have length := length_copyElements copied
        rw [copied] at ok
        simp only at ok ⊢
        cases bytes : v.buf with
        | none =>
            rw [bytes] at ok
            obtain rfl := Option.some.inj ok
            exact ⟨rfl, rfl, rfl, rfl, length, signed, .inl ⟨bytes, rfl⟩⟩
        | some b =>
            simp only [bytes] at ok ⊢
            have present : v.buf ≠ none := by rw [bytes]; exact Option.some_ne_none b
            obtain ⟨c, stored⟩ := Option.ne_none_iff_exists'.mp (sound.own present)
            let copy : Vector α :=
              { this with length := v.length, proto := v.proto, readP := v.readP, compoundBuf, str := v.str, buf := none }
            have stored' : copy.stored = some c := stored
            split at ok
            · cases ok
            · rename_i fits
              rw [if_neg fits]
              obtain ⟨w, done, ok⟩ | ⟨message, threw⟩ := andThen_state ok
              · obtain ⟨-, buf, rfl, length'⟩ := val2buf_fresh stored' (state_of_done done)
                obtain rfl := Option.some.inj ok
                refine ⟨?_, rfl, rfl, rfl, length, signed, .inr ⟨c, present, stored, length'⟩⟩
                exact congrArg (Outcome.andThen · _) done
              · have done := (val2buf_fresh stored' (state_of_threw threw)).1
                cases threw.symm.trans done

namespace Duplicate

variable {v v' : Vector α}

theorem own (copied : Duplicate v v') : v'.buf ≠ none → v'.stored ≠ none := by
  intro present
  rw [stored, copied.proto]
  obtain ⟨-, absent⟩ | ⟨c, -, stored, -⟩ := copied.bytes
  · exact absurd absent present
  · exact ne_of_eq_of_ne stored (Option.some_ne_none c)

theorem elements_of_bytes {c : Cardinal} (copied : Duplicate v v') (kind : v.stored = some c) (present : v.buf ≠ none) :
    v'.elements = v.width / c.width := by
  have kind' : v'.stored = some c := by rw [stored, copied.proto]; exact kind
  rw [elements_of_stored kind']
  obtain ⟨absent, -⟩ | ⟨c', -, same, bytes⟩ := copied.bytes
  · exact absurd absent present
  · obtain rfl := Option.some.inj (same.symm.trans kind)
    rw [bytes, length_withBuffer, u32_mul_u32, width, kind]
    rfl

/-- Without values in the vector there is none in the copy, and the capacity was zero. -/
theorem honest_of_empty {c : Cardinal} (copied : Duplicate v v') (sound : v.Sound) (kind : v.stored = some c)
    (absent : v.buf = none) : v'.capacity ≤ v'.elements := by
  have zero := sound.honest
  rw [elements_of_stored kind, absent, Option.map_none, Option.getD_none, Nat.zero_div] at zero
  rw [copied.capacity]
  omega

theorem sound_iff (copied : Duplicate v v') (sound : v.Sound) : v'.Sound ↔ v.Duplicates := by
  have honest : v'.capacity ≤ v'.elements ↔ v.Duplicates := by
    cases kind : v.stored with
    | some c =>
        have compound : v.stored = none → (v.proto.map ElementType.isString).getD false = false →
            v.compoundBuf ≠ [] → (v.capacity : Int) ≤ v.length := fun none => by rw [kind] at none; cases none
        by_cases absent : v.buf = none
        · exact iff_of_true (copied.honest_of_empty sound kind absent)
            ⟨fun _ _ present => absurd absent present, compound⟩
        · rw [copied.capacity, copied.elements_of_bytes kind absent, Nat.le_div_iff_mul_le c.width_pos]
          constructor
          · intro le
            refine ⟨fun c' stored _ => ?_, compound⟩
            obtain rfl := Option.some.inj (kind.symm.trans stored)
            exact le
          · intro duplicates
            exact duplicates.bytes c kind absent
    | none =>
        have bytes : ∀ c, v.stored = some c → v.buf ≠ none → v.capacity * c.width ≤ v.width :=
          fun c stored => by rw [kind] at stored; cases stored
        have kind' : v'.stored = none := by rw [stored, copied.proto]; exact kind
        rw [copied.capacity]
        cases strings : (v.proto.map ElementType.isString).getD false with
        | true =>
            have strings' : (v'.proto.map ElementType.isString).getD false = true := by rw [copied.proto]; exact strings
            have honest := sound.honest
            rw [elements_of_strings strings] at honest
            rw [elements_of_strings strings', copied.str]
            exact iff_of_true honest ⟨bytes, fun _ not => by rw [strings] at not; cases not⟩
        | false =>
            have strings' : (v'.proto.map ElementType.isString).getD false = false := by rw [copied.proto]; exact strings
            have honest := sound.honest
            rw [elements_of_compound kind strings] at honest
            rw [elements_of_compound kind' strings', copied.compound]
            by_cases empty : v.compoundBuf = []
            · rw [empty] at honest
              rw [if_pos empty]
              exact iff_of_true honest ⟨bytes, fun _ _ some_ => absurd empty some_⟩
            · rw [if_neg empty]
              have signed := copied.signed empty
              constructor
              · intro le
                exact ⟨bytes, fun _ _ _ => by omega⟩
              · intro duplicates
                have le := duplicates.compound kind strings empty
                omega
  exact ⟨fun sound => honest.mp sound.honest, fun duplicates => ⟨honest.mpr duplicates, copied.own⟩⟩

end Duplicate

/-- The elements and the bytes of a slice are counted with the types that the code counts with, and the
    elements of two enumerations may differ in width. -/
structure Slices (v rowMajorData : Vector α) (startElement : Nat) : Prop where
  strings : (v.proto.map ElementType.isString).getD false = true → startElement + rowMajorData.length < 2 ^ 32
  counted : ∀ c', rowMajorData.stored = some c' → rowMajorData.length * c'.width < 2 ^ 31
  widths : ∀ c c', v.stored = some c → rowMajorData.stored = some c' →
    startElement * c.width + rowMajorData.length * c'.width ≤ v.capacity * c.width

theorem length_strings (str : List String) (is : List Nat) (at_ : Nat → Nat) (from_ : Nat → String) :
    (is.foldl (fun str i => str.set (at_ i) (from_ i)) str).length = str.length := by
  induction is generalizing str with
  | nil => rfl
  | cons i is ih => rw [List.foldl_cons, ih, List.length_set]

theorem copyBytes_sound {v row v' : Vector α} {w start : Nat} (sound : v.Sound)
    (ok : (v.copyBytes row w start).state = some v') : v'.Sound := by
  unfold copyBytes at ok
  split at ok
  · exact Option.some.inj ok ▸ sound
  · exact Option.some.inj ok ▸ sound
  · rename_i b from_ buf _
    simp only at ok
    split at ok
    · cases ok
    · split at ok
      · cases ok
      · rename_i copied
        have same : v'.Sound ↔ v.Sound := by
          rw [← Option.some.inj ok]
          exact sound_congr rfl (by rw [buf]; exact length_memcpy copied) rfl rfl rfl
        exact same.mpr sound

theorem copyStrings_sound {v row v' : Vector α} {start : Nat} (sound : v.Sound)
    (ok : (v.copyStrings row start).state = some v') : v'.Sound := by
  unfold copyStrings at ok
  simp only at ok
  split at ok
  · have same : v'.Sound ↔ v.Sound := by
      rw [← Option.some.inj ok]
      exact sound_congr rfl rfl (length_strings ..) rfl rfl
    exact same.mpr sound
  · cases ok

/-- The checks before a slice is copied. -/
structure Passes (v row : Vector α) (start : Nat) : Prop where
  typed : ∃ t t', row.proto = some t ∧ v.proto = some t' ∧ t.sameType t' = true
  signed : 0 ≤ row.length
  full : u32 row.length ≤ row.capacity
  room : u32 (start + row.length) ≤ v.capacity

theorem slice_cases (v row : Vector α) (start : Nat) :
    (∃ message, v.set_value_slice_from_row_major_vector row start = .threw v message) ∨
    v.Passes row start ∧
      ((∃ c, v.stored = some c ∧ v.set_value_slice_from_row_major_vector row start = v.copyBytes row c.width start) ∨
        (v.proto.map ElementType.isString).getD false = true ∧
          v.set_value_slice_from_row_major_vector row start = v.copyStrings row start) := by
  unfold set_value_slice_from_row_major_vector
  simp only
  split
  · rename_i t t' rowProto proto
    split
    · exact .inl ⟨_, rfl⟩
    · rename_i typed
      split
      · exact .inl ⟨_, rfl⟩
      · split
        · exact .inl ⟨_, rfl⟩
        · rename_i signed
          split
          · exact .inl ⟨_, rfl⟩
          · rename_i full
            split
            · exact .inl ⟨_, rfl⟩
            · rename_i room
              have passes : v.Passes row start :=
                ⟨⟨t, t', rowProto, proto, Bool.eq_true_of_not_eq_false typed⟩, not_lt.mp signed, not_lt.mp full,
                  not_lt.mp room⟩
              cases stored : t'.stored with
              | some c => exact .inr ⟨passes, .inl ⟨c, by rw [Vector.stored, proto]; exact stored, rfl⟩⟩
              | none =>
                  cases strings : t'.isString with
                  | true => exact .inr ⟨passes, .inr ⟨by rw [proto]; exact strings, rfl⟩⟩
                  | false => exact .inl ⟨_, rfl⟩
  · exact .inl ⟨_, rfl⟩

theorem slice_sound {v row v' : Vector α} {start : Nat} (sound : v.Sound)
    (ok : (v.set_value_slice_from_row_major_vector row start).state = some v') : v'.Sound := by
  obtain ⟨message, threw⟩ | ⟨-, ⟨c, -, bytes⟩ | ⟨-, strings⟩⟩ := slice_cases v row start
  · rw [threw] at ok
    exact Option.some.inj ok ▸ sound
  · rw [bytes] at ok
    exact copyBytes_sound sound ok
  · rw [strings] at ok
    exact copyStrings_sound sound ok

theorem mul_width_le {v : Vector α} {c : Cardinal} {b : List UInt8} (sound : v.Sound) (stored : v.stored = some c)
    (buf : v.buf = some b) : v.capacity * c.width ≤ b.length := by
  have honest := sound.honest
  rw [elements_of_stored stored, buf] at honest
  exact (Nat.le_div_iff_mul_le c.width_pos).mp honest

theorem memcpy_ne_none {b : List UInt8} {offset : Nat} {from_ : List UInt8} (fits : offset + from_.length ≤ b.length) :
    memcpy (some b) offset from_ ≠ none := by
  unfold memcpy
  simp only [fits, ↓reduceIte]
  split
  · exact Option.some_ne_none _
  · exact Option.some_ne_none _

theorem stored_of_sameType {t t' : ElementType} {c : Cardinal} (same : t.sameType t' = true)
    (stored : t'.stored = some c) : ∃ c', t.stored = some c' := by
  unfold ElementType.sameType at same
  split at same
  · exact ⟨_, rfl⟩
  · exact ⟨c, of_decide_eq_true same ▸ stored⟩

theorem isString_of_sameType {t t' : ElementType} (same : t.sameType t' = true) (isString : t'.isString = true) :
    t.isString = true := by
  unfold ElementType.sameType at same
  split at same
  · cases isString
  · exact of_decide_eq_true same ▸ isString

theorem copyBytes_inside {v row : Vector α} {c : Cardinal} {start : Nat} (sound : v.Sound) (sound' : row.Sound)
    (passes : v.Passes row start) (slices : v.Slices row start) (stored : v.stored = some c) :
    v.copyBytes row c.width start ≠ .undefined := by
  unfold copyBytes
  split
  · intro threw; cases threw
  · intro threw; cases threw
  · rename_i b from_ buf buf'
    obtain ⟨t, t', rowProto, proto, typed⟩ := passes.typed
    obtain ⟨c', stored'⟩ : ∃ c', row.stored = some c' := by
      rw [Vector.stored, rowProto]
      exact stored_of_sameType typed (by rw [Vector.stored, proto] at stored; exact stored)
    obtain ⟨count, length⟩ := Int.eq_ofNat_of_zero_le passes.signed
    have counted := slices.counted c' stored'
    have widths := slices.widths c c' stored stored'
    rw [length] at counted widths
    have counted : count * c'.width < 2 ^ 31 := by exact_mod_cast counted
    have widths : start * c.width + count * c'.width ≤ v.capacity * c.width := by exact_mod_cast widths
    have copied : i32 row.width = (count * c'.width : Nat) := by
      have rowWidth : row.width = count * c'.width := by
        rw [Vector.width, stored', Option.map_some, Option.getD_some, length]
        exact u32_of_lt (by omega)
      rw [rowWidth]
      exact i32_ofNat_of_lt counted
    have inRow : count * c'.width ≤ from_.length := by
      have few : count ≤ count * c'.width := Nat.le_mul_of_pos_right count c'.width_pos
      have full := passes.full
      rw [length, u32_of_lt (by omega)] at full
      exact le_trans (Nat.mul_le_mul_right _ full) (mul_width_le sound' stored' buf')
    have inBuf : u32 ((start * c.width : Nat) : Int) + count * c'.width ≤ b.length := by
      have offset : u32 ((start * c.width : Nat) : Int) ≤ start * c.width := u32_le (Int.natCast_nonneg _)
      calc u32 ((start * c.width : Nat) : Int) + count * c'.width
          ≤ start * c.width + count * c'.width := Nat.add_le_add_right offset _
        _ ≤ v.capacity * c.width := widths
        _ ≤ b.length := mul_width_le sound stored buf
    simp only [copied]
    rw [if_neg (by omega)]
    have fits : u32 ((start * c.width : Nat) : Int) + (from_.take (count * c'.width)).length ≤ b.length := by
      rw [List.length_take, Nat.min_eq_left inRow]
      exact inBuf
    cases memory : memcpy (some b) (u32 ((start * c.width : Nat) : Int))
        (from_.take ((count * c'.width : Nat) : Int).toNat) with
    | none => exact absurd memory (memcpy_ne_none fits)
    | some buf => intro undefined; cases undefined

theorem copyStrings_inside {v row : Vector α} {start : Nat} (sound : v.Sound) (sound' : row.Sound)
    (passes : v.Passes row start) (slices : v.Slices row start)
    (strings : (v.proto.map ElementType.isString).getD false = true) : v.copyStrings row start ≠ .undefined := by
  obtain ⟨t, t', rowProto, proto, typed⟩ := passes.typed
  have strings' : (row.proto.map ElementType.isString).getD false = true := by
    rw [proto] at strings
    rw [rowProto]
    exact isString_of_sameType typed strings
  obtain ⟨count, length⟩ := Int.eq_ofNat_of_zero_le passes.signed
  have few := slices.strings strings
  rw [length] at few
  have present := sound.honest
  rw [elements_of_strings strings] at present
  have rowPresent := sound'.honest
  rw [elements_of_strings strings'] at rowPresent
  have full := passes.full
  rw [length, u32_of_lt (by omega)] at full
  have room := passes.room
  rw [length, show ((start : Int) + (count : Int)) = ((start + count : Nat) : Int) from rfl,
    u32_of_lt (by omega)] at room
  have inside : ∀ i ∈ List.range row.length.toNat, u32 ((start + i : Nat) : Int) < v.str.length ∧ i < row.str.length := by
    intro i mem
    rw [List.mem_range, length, Int.toNat_natCast] at mem
    rw [u32_of_lt (by omega)]
    exact ⟨by omega, by omega⟩
  unfold copyStrings
  simp only
  rw [if_pos inside]
  intro undefined
  cases undefined

/-- A slice that passes the checks stays inside of the storage on both sides. -/
theorem slice_inside {v row : Vector α} {start : Nat} (sound : v.Sound) (sound' : row.Sound)
    (slices : v.Passes row start → v.Slices row start) : v.set_value_slice_from_row_major_vector row start ≠ .undefined := by
  obtain ⟨message, threw⟩ | ⟨passes, ⟨c, stored, bytes⟩ | ⟨strings, copied⟩⟩ := slice_cases v row start
  · rw [threw]
    intro undefined
    cases undefined
  · rw [bytes]
    exact copyBytes_inside sound sound' passes (slices passes) stored
  · rw [copied]
    exact copyStrings_inside sound sound' passes (slices passes) strings

end Vector

end Libdap.Dap2
