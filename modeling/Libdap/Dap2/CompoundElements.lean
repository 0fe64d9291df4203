import Libdap.Dap2.Vector

/-! # The elements of compound vectors

Elements are stored one by one in a vector of compound type, and the vector is copied. The storage grows by
a hundred elements at a time, whatever the index is, and the copy follows every pointer up to the length.
-/

namespace Libdap.Dap2.Vector

open Ints

variable {α : Type}

/-- The calls that store an element. What `set_vec` stores is a copy of its argument, which it follows. -/
inductive Store (α : Type) where
  | set_vec_nocopy (i : Nat) (val : Option α)
  | set_vec (i : Nat) (val : α)

/-- A vector of compound type, with nothing but storage. -/
def storage (proto : ElementType) (length : Int) (room : Nat) : Vector α :=
  { length, proto := some proto, buf := none, compoundBuf := List.replicate room none, str := [], capacity := room,
    readP := false }

/-- The element at a place, if there is one. -/
def element (v : Vector α) (i : Nat) : Option α := v.compoundBuf.getD i none

section

variable (type : α → ElementType)

def set_vec (v : Vector α) (i : Nat) (val : α) : Outcome (Vector α) := v.set_vec_nocopy type i (some val)

def Store.apply (v : Vector α) : Store α → Outcome (Vector α)
  | set_vec_nocopy i val => v.set_vec_nocopy type i val
  | set_vec i val => v.set_vec type i val

/-- The vector behind the calls, some of which may have thrown. -/
def store_all (v : Vector α) : List (Store α) → Option (Vector α)
  | [] => some v
  | s :: calls => (s.apply type v).state.bind fun v => store_all v calls

/-- What a call is to store: the index is in the vector and the element is of its type. -/
def Store.valid (proto : ElementType) (length : Int) : Store α → Option (Nat × α)
  | set_vec_nocopy _ none => none
  | set_vec_nocopy i (some b) | set_vec i b => if i < u32 length ∧ (type b).sameType proto = true then some (i, b) else none

/-- The element that was stored last at a place. -/
def last (stores : List (Nat × α)) (i : Nat) : Option α := (stores.reverse.find? (·.1 = i)).map (·.2)

/-- Everything that is stored is there, in the vector and in a copy of it, and nothing else. -/
def Total (v : Vector α) (calls : List (Store α)) (stores : List (Nat × α)) : Prop :=
  ∃ w c, store_all type v calls = some w ∧ copy w = .done c ∧ ∀ i, w.element i = last stores i ∧ c.element i = last stores i

end

/-- The room that there is when elements have been stored at these places in this order, if each of them is in the room
or in the hundred places behind it. -/
def grown (room : Nat) : List Nat → Option Nat
  | [] => some room
  | i :: is => if i < room then grown room is else if i < room + 100 ∧ room + 100 < 2 ^ 31 then grown (room + 100) is else none

/-! ## Storing -/

section

variable {stores : List (Nat × α)}

theorem last_append (stores : List (Nat × α)) (j : Nat) (b : α) (i : Nat) :
    last (stores ++ [(j, b)]) i = if j = i then some b else last stores i := by
  rw [last, List.reverse_append, List.reverse_singleton, List.singleton_append, List.find?_cons, last]
  by_cases same : j = i
  · simp only [same, decide_true, if_true, Option.map_some]
  · simp only [same, decide_false, if_false]

theorem last_isSome_iff {i : Nat} : (last stores i).isSome = true ↔ ∃ b, (i, b) ∈ stores := by
  rw [last, Option.isSome_map, List.find?_isSome]
  constructor
  · rintro ⟨⟨j, b⟩, mem, same⟩
    obtain rfl := of_decide_eq_true same
    exact ⟨b, List.mem_reverse.mp mem⟩
  · rintro ⟨b, mem⟩
    exact ⟨(i, b), List.mem_reverse.mpr mem, decide_eq_true rfl⟩

end

/-- A vector with room for so many elements, some of which have been stored. -/
structure Held (proto : ElementType) (length : Int) (room : Nat) (stores : List (Nat × α)) (v : Vector α) : Prop where
  proto : v.proto = some proto
  length : v.length = length
  buf : v.buf = none
  room : v.compoundBuf.length = room
  elements : ∀ i, v.element i = last stores i

section

variable {type : α → ElementType} {proto : ElementType} {length : Int} {room : Nat} {stores : List (Nat × α)} {v : Vector α}

theorem held_storage (proto : ElementType) (length : Int) (room : Nat) : Held (α := α) proto length room [] (storage proto length room) where
  proto := rfl
  length := rfl
  buf := rfl
  room := List.length_replicate
  elements i := by
    simp only [element, storage, last, List.reverse_nil, List.find?_nil, Option.map_none, List.getD_eq_getElem?_getD,
      List.getElem?_replicate]
    split <;> rfl

/-- What is not to be stored is refused. -/
theorem apply_of_invalid (held : Held proto length room stores v) {s : Store α} (invalid : s.valid type proto length = none) :
    (s.apply type v).state = some v := by
  have refused (i : Nat) (b : α) (invalid : ¬(i < u32 length ∧ (type b).sameType proto = true)) :
      (v.set_vec_nocopy type i (some b)).state = some v := by
    simp only [set_vec_nocopy, held.length, held.proto]
    by_cases inside : u32 length ≤ i
    · rw [if_pos inside]
      rfl
    · rw [if_neg inside, if_neg fun same => invalid ⟨Nat.lt_of_not_le inside, same⟩]
      rfl
  cases s with
  | set_vec_nocopy i val =>
      cases val with
      | none =>
          simp only [Store.apply, set_vec_nocopy]
          split <;> rfl
      | some b =>
          apply refused
          intro valid
          rw [Store.valid, if_pos valid] at invalid
          cases invalid
  | set_vec i b =>
      apply refused
      intro valid
      rw [Store.valid, if_pos valid] at invalid
      cases invalid

/-- What is to be stored comes to a growth of the storage, when the index is not in it, and an assignment. -/
theorem apply_of_valid (held : Held proto length room stores v) {s : Store α} {i : Nat} {b : α}
    (valid : s.valid type proto length = some (i, b)) : i < u32 length ∧
      s.apply type v = (if room ≤ i then v.vec_resize (i32 (room + 100 : Nat)) else .done v).andThen fun v =>
        if i < v.compoundBuf.length then .done { v with compoundBuf := v.compoundBuf.set i (some b) } else .undefined := by
  have taken (inside : i < u32 length) (same : (type b).sameType proto = true) : v.set_vec_nocopy type i (some b) =
      (if room ≤ i then v.vec_resize (i32 (room + 100 : Nat)) else .done v).andThen fun v =>
        if i < v.compoundBuf.length then .done { v with compoundBuf := v.compoundBuf.set i (some b) } else .undefined := by
    simp only [set_vec_nocopy, held.length, held.proto, held.room, if_neg (Nat.not_le.mpr inside), if_pos same]
  cases s with
  | set_vec_nocopy j val =>
      cases val with
      | none => cases valid
      | some b' =>
          obtain ⟨⟨inside, same⟩, pair⟩ := Option.ite_none_right_eq_some.mp valid
          cases pair
          exact ⟨inside, taken inside same⟩
  | set_vec j b' =>
      obtain ⟨⟨inside, same⟩, pair⟩ := Option.ite_none_right_eq_some.mp valid
      cases pair
      exact ⟨inside, taken inside same⟩

theorem Held.set (held : Held proto length room stores v) {i : Nat} (inside : i < room) (b : α) :
    Held proto length room (stores ++ [(i, b)]) { v with compoundBuf := v.compoundBuf.set i (some b) } where
  proto := held.proto
  length := held.length
  buf := held.buf
  room := (List.length_set ..).trans held.room
  elements j := by
    have before := held.elements j
    have inside : i < v.compoundBuf.length := held.room ▸ inside
    rw [last_append, ← before]
    simp only [element, List.getD_eq_getElem?_getD, List.getElem?_set]
    by_cases same : i = j
    · simp only [same, if_true, same ▸ inside, Option.getD_some]
    · simp only [same, if_false]

theorem Held.resize (held : Held proto length room stores v) {l : Nat} (more : room ≤ l) :
    Held proto length l stores { v with compoundBuf := Dap2.resize v.compoundBuf l none, capacity := l } where
  proto := held.proto
  length := held.length
  buf := held.buf
  room := by
    rw [Dap2.resize, List.length_append, List.length_take, List.length_replicate, held.room]
    omega
  elements i := by
    have before := held.elements i
    have room := held.room
    rw [← before]
    simp only [element, Dap2.resize, List.getD_eq_getElem?_getD, List.getElem?_append, List.take_of_length_le (room ▸ more),
      List.getElem?_replicate]
    by_cases inside : i < v.compoundBuf.length
    · rw [if_pos inside]
    · rw [if_neg inside, List.getElem?_eq_none (Nat.le_of_not_lt inside)]
      split <;> rfl

/-- An element that fits is stored; one that does not leaves no vector, or the vector without it. -/
theorem store_cases (compound : proto.stored = none) (held : Held proto length room stores v) {s : Store α} {i : Nat} {b : α}
    (valid : s.valid type proto length = some (i, b)) :
    if i < room then ∃ w, (s.apply type v).state = some w ∧ Held proto length room (stores ++ [(i, b)]) w
    else if i < room + 100 ∧ room + 100 < 2 ^ 31 then
      ∃ w, (s.apply type v).state = some w ∧ Held proto length (room + 100) (stores ++ [(i, b)]) w
    else (s.apply type v).state = none ∨ (s.apply type v).state = some v ∧ 2 ^ 31 ≤ room + 100 := by
  obtain ⟨inside, applied⟩ := apply_of_valid held valid
  have bound := u32_lt length
  have no_cardinal : v.m_is_cardinal_type = false := by
    simp only [m_is_cardinal_type, Vector.stored, held.proto, Option.bind_some, compound, Option.isSome_none]
  rw [applied]
  split
  · rename_i there
    rw [if_neg (Nat.not_le.mpr there)]
    exact ⟨_, by rw [Outcome.andThen, held.room, if_pos there]; rfl, held.set there b⟩
  · rename_i beyond
    rw [if_pos (Nat.le_of_not_lt beyond), vec_resize, no_cardinal, if_neg Bool.false_ne_true]
    split
    · rename_i fits
      have grown := held.resize (Nat.le_add_right room 100)
      have l : i32 (room + 100 : Nat) = (room + 100 : Nat) := i32_ofNat_of_lt fits.2
      rw [l, if_neg (by omega), Int.toNat_natCast, Outcome.andThen, grown.room, if_pos fits.1]
      exact ⟨_, rfl, grown.set fits.1 b⟩
    · rename_i misfit
      by_cases negative : i32 (room + 100 : Nat) < 0
      · rw [if_pos negative]
        refine .inr ⟨rfl, ?_⟩
        simp only [i32] at negative
        omega
      · left
        have outside : ¬i < (Dap2.resize v.compoundBuf (i32 (room + 100 : Nat)).toNat none).length := by
          rw [Dap2.resize, List.length_append, List.length_take, List.length_replicate, held.room]
          simp only [i32] at negative ⊢
          omega
        rw [if_neg negative, Outcome.andThen, if_neg outside]
        rfl

theorem store_all_of_state {w : Vector α} {s : Store α} (state : (s.apply type v).state = some w) (calls : List (Store α)) :
    store_all type v (s :: calls) = store_all type w calls := by
  rw [store_all, state, Option.bind_some]

/-- As long as every element fits, all of them are stored. -/
theorem store_all_of_grown (compound : proto.stored = none) (held : Held proto length room stores v) (calls : List (Store α))
    {room' : Nat} (fits : grown room ((calls.filterMap (Store.valid type proto length)).map (·.1)) = some room') :
    ∃ w, store_all type v calls = some w ∧
      Held proto length room' (stores ++ calls.filterMap (Store.valid type proto length)) w := by
  induction calls generalizing v room stores with
  | nil =>
      obtain rfl := Option.some.inj fits
      exact ⟨v, rfl, by rwa [List.filterMap_nil, List.append_nil]⟩
  | cons s calls ih =>
      cases valid : s.valid type proto length with
      | none =>
          rw [List.filterMap_cons_none valid] at fits ⊢
          rw [store_all_of_state (apply_of_invalid held valid)]
          exact ih held fits
      | some store =>
          obtain ⟨i, b⟩ := store
          have taken := store_cases compound held valid
          rw [List.filterMap_cons_some valid] at fits ⊢
          rw [List.map_cons, grown] at fits
          rw [List.append_cons]
          by_cases inside : i < room
          · rw [if_pos inside] at taken fits
            obtain ⟨w, state, held⟩ := taken
            rw [store_all_of_state state]
            exact ih held fits
          · rw [if_neg inside] at taken fits
            by_cases behind : i < room + 100 ∧ room + 100 < 2 ^ 31
            · rw [if_pos behind] at taken fits
              obtain ⟨w, state, held⟩ := taken
              rw [store_all_of_state state]
              exact ih held fits
            · rw [if_neg behind] at fits
              cases fits

/-- A storage that is as large as it can be does not change its size any more. -/
theorem room_of_full (compound : proto.stored = none) (full : 2 ^ 31 ≤ room + 100) (held : Held proto length room stores v)
    (calls : List (Store α)) {w : Vector α} (ends : store_all type v calls = some w) : w.compoundBuf.length = room := by
  induction calls generalizing v stores with
  | nil =>
      obtain rfl := Option.some.inj ends
      exact held.room
  | cons s calls ih =>
      cases valid : s.valid type proto length with
      | none =>
          rw [store_all_of_state (apply_of_invalid held valid)] at ends
          exact ih held ends
      | some store =>
          obtain ⟨i, b⟩ := store
          have taken := store_cases compound held valid
          split at taken
          · obtain ⟨w, state, held⟩ := taken
            rw [store_all_of_state state] at ends
            exact ih held ends
          · rw [if_neg (by omega)] at taken
            rcases taken with state | ⟨state, -⟩
            · rw [store_all, state] at ends
              cases ends
            · rw [store_all_of_state state] at ends
              exact ih held ends

/-- When an element does not fit it is not stored, if the calls come to their end at all. -/
theorem missing_of_not_grown (compound : proto.stored = none) (held : Held proto length room stores v) (calls : List (Store α))
    (misfit : grown room ((calls.filterMap (Store.valid type proto length)).map (·.1)) = none) {w : Vector α}
    (ends : store_all type v calls = some w) :
    ∃ i, w.element i ≠ last (stores ++ calls.filterMap (Store.valid type proto length)) i := by
  induction calls generalizing v room stores with
  | nil => cases misfit
  | cons s calls ih =>
      cases valid : s.valid type proto length with
      | none =>
          rw [List.filterMap_cons_none valid] at misfit ⊢
          rw [store_all_of_state (apply_of_invalid held valid)] at ends
          exact ih held misfit ends
      | some store =>
          obtain ⟨i, b⟩ := store
          have taken := store_cases compound held valid
          rw [List.filterMap_cons_some valid] at misfit ⊢
          rw [List.map_cons, grown] at misfit
          by_cases inside : i < room
          · rw [if_pos inside] at taken misfit
            obtain ⟨v', state, held⟩ := taken
            rw [store_all_of_state state] at ends
            rw [List.append_cons]
            exact ih held misfit ends
          · rw [if_neg inside] at taken misfit
            by_cases behind : i < room + 100 ∧ room + 100 < 2 ^ 31
            · rw [if_pos behind] at taken misfit
              obtain ⟨v', state, held⟩ := taken
              rw [store_all_of_state state] at ends
              rw [List.append_cons]
              exact ih held misfit ends
            · rw [if_neg behind] at taken
              rcases taken with state | ⟨state, full⟩
              · rw [store_all, state] at ends
                cases ends
              · rw [store_all_of_state state] at ends
                have same := room_of_full compound full held calls ends
                refine ⟨i, fun stored => ?_⟩
                have there : (w.element i).isSome = true := by
                  rw [stored, last_isSome_iff]
                  exact ⟨b, List.mem_append_right _ List.mem_cons_self⟩
                rw [element, List.getD_eq_getElem?_getD, List.getElem?_eq_none (by omega)] at there
                cases there

/-! ## Copying -/

theorem copy_refused (some_ : v.compoundBuf ≠ []) (negative : v.length < 0) (c : Vector α) : copy v ≠ .done c := by
  rw [copy, m_duplicate, if_pos ⟨some_, negative⟩]
  exact fun same => by cases same

/-- The number of pointers that are followed. -/
def followed (v : Vector α) : Nat := if v.compoundBuf = [] then 0 else v.length.toNat

theorem copy_done_iff (buf : v.buf = none) (length : v.compoundBuf = [] ∨ 0 ≤ v.length) {P : List (Option α) → Prop} :
    (∃ c, copy v = .done c ∧ P c.compoundBuf) ↔ ∃ elements, copyElements v.compoundBuf v.followed = some elements ∧ P elements := by
  have sized : ¬(v.compoundBuf ≠ [] ∧ v.length < 0) := by
    rintro ⟨some_, negative⟩
    rcases length with none_ | nonneg
    · exact some_ none_
    · omega
  simp only [copy, m_duplicate, if_neg sized]
  rw [followed]
  cases copied : copyElements v.compoundBuf (if v.compoundBuf = [] then 0 else v.length.toNat) with
  | none =>
      constructor
      · rintro ⟨c, same, -⟩
        cases same
      · rintro ⟨elements, same, -⟩
        cases same
  | some elements =>
      simp only [buf]
      constructor
      · rintro ⟨c, same, holds⟩
        cases same
        exact ⟨elements, rfl, holds⟩
      · rintro ⟨_, same, holds⟩
        cases same
        exact ⟨_, rfl, holds⟩

theorem element_take (l : List (Option α)) (n i : Nat) : (l.take n).getD i none = if i < n then l.getD i none else none := by
  rw [List.getD_eq_getElem?_getD, List.getElem?_take, List.getD_eq_getElem?_getD]
  split <;> rfl

/-- A copy follows all the pointers up to the length, unless there is no storage. -/
theorem copy_iff (held : Held proto length room stores v)
    (inside : ∀ i b, (i, b) ∈ stores → 0 ≤ length → i < length.toNat) :
    (∃ c, copy v = .done c ∧ ∀ i, c.element i = last stores i) ↔
      room = 0 ∨ 0 ≤ length ∧ ∀ i < length.toNat, ∃ b, (i, b) ∈ stores := by
  have copied (sized : v.compoundBuf = [] ∨ 0 ≤ v.length) := copy_done_iff
    (P := fun elements => ∀ i, elements.getD i none = last stores i) held.buf sized
  by_cases none_ : v.compoundBuf = []
  · have empty : room = 0 := by rw [← held.room, none_, List.length_nil]
    apply iff_of_true _ (.inl empty)
    apply (copied (.inl none_)).mpr
    refine ⟨[], ?_, fun i => ?_⟩
    · rw [followed, if_pos none_, none_]
      rfl
    · rw [← held.elements i, element, none_]
  · have some_ : room ≠ 0 := by
      rw [← held.room]
      exact List.length_eq_zero_iff.not.mpr none_
    by_cases nonneg : 0 ≤ length
    · have length' : v.followed = length.toNat := by rw [followed, if_neg none_, held.length]
      have present (i : Nat) : (v.compoundBuf.getD i none).isSome = true ↔ ∃ b, (i, b) ∈ stores := by
        rw [← last_isSome_iff, ← held.elements i, element]
      apply (copied (.inr (held.length ▸ nonneg))).trans
      rw [length', copyElements]
      constructor
      · rintro ⟨elements, taken, -⟩
        obtain ⟨⟨enough, all⟩, -⟩ := Option.ite_none_right_eq_some.mp taken
        refine .inr ⟨nonneg, fun i less => ?_⟩
        have there : (v.compoundBuf.take length.toNat)[i]? = some (v.compoundBuf.getD i none) := by
          rw [List.getElem?_take, if_pos less, List.getD_eq_getElem?_getD,
            List.getElem?_eq_getElem (Nat.lt_of_lt_of_le less enough), Option.getD_some]
        rw [← present]
        exact List.all_eq_true.mp all _ (List.mem_of_getElem? there)
      · rintro (empty | ⟨-, all⟩)
        · exact absurd empty some_
        · have enough : length.toNat ≤ v.compoundBuf.length := by
            by_contra short
            have there := (present v.compoundBuf.length).mpr (all _ (Nat.lt_of_not_le short))
            rw [List.getD_eq_getElem?_getD, List.getElem?_eq_none (Nat.le_refl _)] at there
            cases there
          have every : (v.compoundBuf.take length.toNat).all Option.isSome = true := by
            rw [List.all_eq_true]
            intro o mem
            obtain ⟨i, less, same⟩ := List.mem_iff_getElem.mp mem
            rw [List.length_take] at less
            rw [← same, List.getElem_take]
            have there := (present i).mpr (all i (by omega))
            rwa [List.getD_eq_getElem?_getD, List.getElem?_eq_getElem (by omega), Option.getD_some] at there
          refine ⟨_, if_pos ⟨enough, every⟩, fun i => ?_⟩
          rw [element_take]
          by_cases less : i < length.toNat
          · rw [if_pos less, ← held.elements i, element]
          · rw [if_neg less]
            cases found : last stores i with
            | none => rfl
            | some b =>
                obtain ⟨b', mem⟩ := last_isSome_iff.mp (Option.isSome_of_eq_some found)
                exact absurd (inside i b' mem nonneg) less
    · apply iff_of_false
      · rintro ⟨c, done, -⟩
        exact copy_refused none_ (by rw [held.length]; omega) c done
      · rintro (none_ | both)
        · exact some_ none_
        · exact nonneg both.1

theorem inside_of_stores {calls : List (Store α)} {i : Nat} {b : α} (mem : (i, b) ∈ calls.filterMap (Store.valid type proto length))
    (nonneg : 0 ≤ length) : i < length.toNat := by
  obtain ⟨s, -, valid⟩ := List.mem_filterMap.mp mem
  have inside := (apply_of_valid (held_storage proto length 0) valid).1
  simp only [u32] at inside
  omega

theorem grown_zero_iff {is : List Nat} {room' : Nat} (fits : grown room is = some room') : room' = 0 ↔ room = 0 ∧ is = [] := by
  fun_induction grown room is with
  | case1 room =>
      obtain rfl := Option.some.inj fits
      exact ⟨fun empty => ⟨empty, rfl⟩, fun both => both.1⟩
  | case2 room i is inside ih =>
      rw [ih fits]
      exact iff_of_false (fun both => Nat.not_lt_zero i (both.1 ▸ inside)) fun both => List.cons_ne_nil i is both.2
  | case3 room i is outside behind ih =>
      rw [ih fits]
      exact iff_of_false (fun both => absurd both.1 (Nat.succ_ne_zero _)) fun both => List.cons_ne_nil i is both.2
  | case4 => cases fits

end

/-- Everything is stored and copied when each element is stored in the room that there is or in the hundred places
behind it, and when none of the places of the vector is left without an element, unless there is no room at all. -/
theorem total_iff (type : α → ElementType) (proto : ElementType) (compound : proto.stored = none) (length : Int) (room : Nat)
    (calls : List (Store α)) :
    Total type (storage proto length room) calls (calls.filterMap (Store.valid type proto length)) ↔
      (grown room ((calls.filterMap (Store.valid type proto length)).map (·.1))).isSome = true ∧
        (room = 0 ∧ calls.filterMap (Store.valid type proto length) = [] ∨
          0 ≤ length ∧ ∀ i < length.toNat, ∃ b, (i, b) ∈ calls.filterMap (Store.valid type proto length)) := by
  have start := held_storage (α := α) proto length room
  cases fits : grown room ((calls.filterMap (Store.valid type proto length)).map (·.1)) with
  | none =>
      apply iff_of_false
      · rintro ⟨w, c, ends, -, all⟩
        obtain ⟨i, other⟩ := missing_of_not_grown compound start calls fits ends
        exact other (all i).1
      · rintro ⟨some_, -⟩
        cases some_
  | some room' =>
      obtain ⟨w, ends, held⟩ := store_all_of_grown compound start calls fits
      rw [List.nil_append] at held
      have copied := copy_iff held fun i b mem nonneg => inside_of_stores mem nonneg
      rw [grown_zero_iff fits, List.map_eq_nil_iff] at copied
      have total : Total type (storage proto length room) calls (calls.filterMap (Store.valid type proto length)) ↔
          ∃ c, copy w = .done c ∧ ∀ i, c.element i = last (calls.filterMap (Store.valid type proto length)) i := by
        constructor
        · rintro ⟨w', c, ends', done, all⟩
          obtain rfl := Option.some.inj (ends'.symm.trans ends)
          exact ⟨c, done, fun i => (all i).2⟩
        · rintro ⟨c, done, all⟩
          exact ⟨w, c, ends, done, fun i => ⟨held.elements i, all i⟩⟩
      rw [total, copied]
      exact (and_iff_right rfl).symm

/-- Two elements of a vector of two. -/
theorem both_stored : Total (fun _ : Unit => .dods_structure_c) (storage .dods_structure_c 2 0) [.set_vec 1 (), .set_vec_nocopy 0 (some ())]
    [(1, ()), (0, ())] :=
  (total_iff (fun _ : Unit => .dods_structure_c) .dods_structure_c rfl 2 0 [.set_vec 1 (), .set_vec_nocopy 0 (some ())]).mpr
    ⟨by decide, .inr ⟨by decide, fun i less => ⟨(), by revert i; decide⟩⟩⟩

/-- The element at 150 of 200, which is behind the first hundred. -/
theorem behind_missing : ¬∀ (length : Int) (room : Nat) (calls : List (Store Unit)),
    Total (fun _ => .dods_structure_c) (storage .dods_structure_c length room) calls
      (calls.filterMap (Store.valid (fun _ => .dods_structure_c) .dods_structure_c length)) := by
  intro all
  have fits := ((total_iff (fun _ : Unit => .dods_structure_c) .dods_structure_c rfl 200 0 [.set_vec 150 ()]).mp (all ..)).1
  revert fits
  decide

end Libdap.Dap2.Vector
