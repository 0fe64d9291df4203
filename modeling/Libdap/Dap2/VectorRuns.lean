import Libdap.Dap2.VectorCapacity
import Libdap.Foundation.Run

/-! # Runs of calls on vectors

Vectors are made, changed, copied, assigned and filled with slices of each other,
in any order. While every call meets its condition, every capacity is honest and
no slice gets out of the storage.
-/

namespace Libdap.Dap2

namespace Vector

variable {α : Type}

/-- The calls on one vector. -/
inductive Op (α : Type) where
  | set_length (l : Int)
  | set_read_p (state : Bool)
  | reserve_value_capacity (numElements : Nat)
  | set_value (c : Cardinal) (val : Option (Nat → UInt8)) (sz : Int)
  | set_value_str (val : Option (Nat → String)) (sz : Int)
  | val2buf (val : Option Memory) (reuse : Bool)
  | vec_resize (l : Int)
  | set_vec_nocopy (i : Nat) (val : Option α)
  | clear_local_data

/-- A call, with the numbers of the vectors that it is about. -/
inductive Call (α : Type) where
  | create (proto : Option ElementType)
  | on (i : Nat) (op : Op α)
  | copy (i : Nat)
  | assign (i j : Nat)
  | set_value_slice_from_row_major_vector (i j startElement : Nat)

section

variable (type : α → ElementType)

def Op.apply (op : Op α) (v : Vector α) : Outcome (Vector α) :=
  match op with
  | set_length l => .done (v.set_length l)
  | set_read_p state => .done (v.set_read_p state)
  | reserve_value_capacity numElements => v.reserve_value_capacity numElements
  | set_value c val sz => v.set_value c val sz
  | set_value_str val sz => v.set_value_str val sz
  | val2buf val reuse => v.val2buf val reuse
  | vec_resize l => v.vec_resize l
  | set_vec_nocopy i val => v.set_vec_nocopy type i val
  | clear_local_data => .done v.clear_local_data

/-- The condition under which the capacity is honest after a call. -/
def Op.Keeps (op : Op α) (v : Vector α) : Prop :=
  match op with
  | set_length _ | set_read_p _ | set_value _ _ _ | set_value_str _ _ | clear_local_data => True
  | reserve_value_capacity numElements => v.Reserves numElements
  | val2buf val reuse => v.Converts val reuse
  | vec_resize l => v.Resizes l
  | set_vec_nocopy i val => v.Grows type i val

/-- The one vector of the pool that a call changes. -/
def update (pool : List (Vector α)) (i : Nat) : Outcome (Vector α) → Outcome (List (Vector α))
  | .done v => .done (pool.set i v)
  | .threw v message => .threw (pool.set i v) message
  | .undefined => .undefined

/-- A number without a vector is no call. -/
def withVector (pool : List (Vector α)) (i : Nat) (f : Vector α → Outcome (List (Vector α))) :
    Outcome (List (Vector α)) :=
  match pool[i]? with
  | none => .done pool
  | some v => f v

/-- A copy is a new vector. A constructor that throws leaves none. -/
def withCopy (pool : List (Vector α)) : Outcome (Vector α) → Outcome (List (Vector α))
  | .done v => .done (pool ++ [v])
  | .threw _ message => .threw pool message
  | .undefined => .undefined

/-- A call on the vectors of a program. -/
def Call.apply (call : Call α) (pool : List (Vector α)) : Outcome (List (Vector α)) :=
  match call with
  | create proto => .done (pool ++ [ofProto proto])
  | on i op => withVector pool i fun v => update pool i (op.apply type v)
  | copy i => withVector pool i fun v => withCopy pool v.copy
  | assign i j => withVector pool i fun this => withVector pool j fun v =>
      if i = j then .done pool else update pool i (m_duplicate this v)
  | set_value_slice_from_row_major_vector i j startElement =>
      withVector pool i fun v => withVector pool j fun rowMajorData =>
        update pool i (v.set_value_slice_from_row_major_vector rowMajorData startElement)

/-- An assignment that is refused leaves the values of the vector under the type of the other. -/
def Assigns (this v : Vector α) : Prop :=
  if v.compoundBuf ≠ [] ∧ v.length < 0 then ({ this with proto := v.proto } : Vector α).Sound else v.Duplicates

/-- The condition on the vectors before a call. -/
def Call.Keeps (pool : List (Vector α)) (call : Call α) : Prop :=
  match call with
  | create _ | set_value_slice_from_row_major_vector _ _ _ => True
  | on i op => ∀ v, pool[i]? = some v → op.Keeps type v
  | copy i => ∀ v, pool[i]? = some v → (v.compoundBuf ≠ [] ∧ v.length < 0) ∨ v.Duplicates
  | assign i j => ∀ this, pool[i]? = some this → ∀ v, pool[j]? = some v → i = j ∨ this.Assigns v

/-- What the vectors are after a call that returns or throws. -/
def Step (pool : List (Vector α)) (call : Call α) (pool' : List (Vector α)) : Prop :=
  (call.apply type pool).state = some pool'

end

variable {type : α → ElementType}

theorem Op.apply_sound_iff {op : Op α} {v v' : Vector α} (sound : v.Sound) (ok : (op.apply type v).state = some v') :
    v'.Sound ↔ op.Keeps type v := by
  cases op with
  | set_length l =>
      obtain rfl := Option.some.inj ok
      have same : (v.set_length l).Sound ↔ v.Sound := sound_congr rfl rfl rfl rfl rfl
      exact iff_of_true (same.mpr sound) trivial
  | set_read_p state =>
      obtain rfl := Option.some.inj ok
      have same : (v.set_read_p state).Sound ↔ v.Sound := sound_congr rfl rfl rfl rfl rfl
      exact iff_of_true (same.mpr sound) trivial
  | reserve_value_capacity n => exact reserve_sound_iff sound ok
  | set_value c val sz => exact iff_of_true (set_value_sound sound ok) trivial
  | set_value_str val sz => exact iff_of_true (set_value_str_sound sound ok) trivial
  | val2buf val reuse => exact val2buf_sound_iff sound ok
  | vec_resize l => exact vec_resize_sound_iff sound ok
  | set_vec_nocopy i val => exact set_vec_nocopy_sound_iff sound ok
  | clear_local_data =>
      obtain rfl := Option.some.inj ok
      exact iff_of_true ⟨Nat.zero_le _, fun present => absurd rfl present⟩ trivial

/-- Every vector of the pool has an honest capacity. -/
def AllSound (pool : List (Vector α)) : Prop := ∀ v ∈ pool, v.Sound

theorem allSound_set_iff {pool : List (Vector α)} {i : Nat} {v v' : Vector α} (sound : AllSound pool)
    (at_ : pool[i]? = some v) : AllSound (pool.set i v') ↔ v'.Sound := by
  obtain ⟨lt, -⟩ := List.getElem?_eq_some_iff.mp at_
  constructor
  · intro after
    exact after v' (List.mem_set lt v')
  · intro sound' w mem
    obtain old | rfl := List.mem_or_eq_of_mem_set mem
    · exact sound w old
    · exact sound'

theorem allSound_snoc_iff {pool : List (Vector α)} {v : Vector α} (sound : AllSound pool) :
    AllSound (pool ++ [v]) ↔ v.Sound := by
  constructor
  · intro after
    exact after v (List.mem_append_right _ List.mem_cons_self)
  · intro sound' w mem
    obtain old | new := List.mem_append.mp mem
    · exact sound w old
    · rw [List.mem_singleton.mp new]
      exact sound'

theorem update_state {pool pool' : List (Vector α)} {i : Nat} {o : Outcome (Vector α)}
    (ok : (update pool i o).state = some pool') : ∃ v', o.state = some v' ∧ pool' = pool.set i v' := by
  cases o with
  | done v => exact ⟨v, rfl, (Option.some.inj ok).symm⟩
  | threw v message => exact ⟨v, rfl, (Option.some.inj ok).symm⟩
  | undefined => cases ok

theorem assign_sound_iff {this v v' : Vector α} (sound : v.Sound) (ok : (m_duplicate this v).state = some v') :
    v'.Sound ↔ this.Assigns v := by
  unfold Assigns
  obtain ⟨refused, -, rfl⟩ | ⟨accepted, -, copied⟩ := m_duplicate_state sound ok
  · rw [if_pos refused]
    exact sound_congr rfl rfl rfl rfl rfl
  · rw [if_neg accepted]
    exact copied.sound_iff sound

theorem withVector_sound_iff {pool pool' : List (Vector α)} {i : Nat} {f : Vector α → Outcome (List (Vector α))}
    {keeps : Vector α → Prop} (sound : AllSound pool) (ok : (withVector pool i f).state = some pool')
    (each : ∀ v, pool[i]? = some v → (f v).state = some pool' → (AllSound pool' ↔ keeps v)) :
    AllSound pool' ↔ ∀ v, pool[i]? = some v → keeps v := by
  unfold withVector at ok
  cases at_ : pool[i]? with
  | none =>
      rw [at_] at ok
      obtain rfl := Option.some.inj ok
      exact iff_of_true sound fun v found => by cases found
  | some v =>
      rw [at_] at ok
      rw [each v at_ ok]
      exact ⟨fun keeps v found => Option.some.inj found ▸ keeps, fun keeps => keeps v rfl⟩

theorem withCopy_sound_iff {pool pool' : List (Vector α)} {v : Vector α} (sound : AllSound pool) (sound' : v.Sound)
    (ok : (withCopy pool v.copy).state = some pool') :
    AllSound pool' ↔ (v.compoundBuf ≠ [] ∧ v.length < 0) ∨ v.Duplicates := by
  cases copied : v.copy with
  | done this =>
      rw [copied] at ok
      obtain rfl := Option.some.inj ok
      rw [allSound_snoc_iff sound]
      obtain ⟨-, threw, -⟩ | ⟨accepted, -, duplicate⟩ := m_duplicate_state sound' (state_of_done copied)
      · cases copied.symm.trans threw
      · rw [duplicate.sound_iff sound', or_iff_right accepted]
  | threw this message =>
      rw [copied] at ok
      obtain rfl := Option.some.inj ok
      obtain ⟨refused, -, -⟩ | ⟨-, done, -⟩ := m_duplicate_state sound' (state_of_threw copied)
      · exact iff_of_true sound (.inl refused)
      · cases copied.symm.trans done
  | undefined => rw [copied] at ok; cases ok

/-- From honest capacities a call leads to honest capacities exactly under its condition. -/
theorem step_sound_iff {pool pool' : List (Vector α)} {call : Call α} (sound : AllSound pool)
    (step : Step type pool call pool') : AllSound pool' ↔ call.Keeps type pool := by
  cases call with
  | create proto =>
      obtain rfl := Option.some.inj step
      exact iff_of_true ((allSound_snoc_iff sound).mpr (ofProto_sound proto)) trivial
  | on i op =>
      refine withVector_sound_iff sound step fun v at_ ok => ?_
      obtain ⟨v', changed, rfl⟩ := update_state ok
      rw [allSound_set_iff sound at_]
      exact Op.apply_sound_iff (sound v (List.mem_of_getElem? at_)) changed
  | copy i =>
      refine withVector_sound_iff sound step fun v at_ ok => ?_
      exact withCopy_sound_iff sound (sound v (List.mem_of_getElem? at_)) ok
  | assign i j =>
      refine withVector_sound_iff sound step fun this at_ ok => ?_
      refine withVector_sound_iff sound ok fun v from_ ok => ?_
      by_cases self : i = j
      · rw [if_pos self] at ok
        obtain rfl := Option.some.inj ok
        exact iff_of_true sound (.inl self)
      · rw [if_neg self] at ok
        obtain ⟨v', changed, rfl⟩ := update_state ok
        rw [allSound_set_iff sound at_, or_iff_right self]
        exact assign_sound_iff (sound v (List.mem_of_getElem? from_)) changed
  | set_value_slice_from_row_major_vector i j start =>
      have kept : AllSound pool' ↔ ∀ v, pool[i]? = some v → ∀ row, pool[j]? = some row → True := by
        refine withVector_sound_iff sound step fun v at_ ok => ?_
        refine withVector_sound_iff sound ok fun row from_ ok => ?_
        obtain ⟨v', changed, rfl⟩ := update_state ok
        rw [allSound_set_iff sound at_]
        exact iff_of_true (slice_sound (sound v (List.mem_of_getElem? at_)) changed) trivial
      exact iff_of_true (kept.mpr fun _ _ _ _ => trivial) trivial

/-- In a run whose calls all meet their conditions every capacity is honest, and a slice that passes the checks
    stays inside of the storage. -/
theorem capacity_honest {pool : List (Vector α)} {calls : List (Call α)}
    (run : Run (Under (fun pool call => call.Keeps type pool) (Step type)) [] calls pool) :
    (∀ v ∈ pool, v.capacity ≤ v.elements) ∧
      ∀ v ∈ pool, ∀ row ∈ pool, ∀ start, (v.Passes row start → v.Slices row start) →
        v.set_value_slice_from_row_major_vector row start ≠ .undefined := by
  have sound : AllSound pool :=
    run.keeps (fun sound taken => (step_sound_iff sound taken.2).mpr taken.1) fun v mem => by cases mem
  exact ⟨fun v mem => (sound v mem).honest,
    fun v mem row mem' start slices => slice_inside (sound v mem) (sound row mem') slices⟩

/-- Two strings. -/
def twoStrings : Vector Unit :=
  { length := 2, proto := some .dods_str_c, buf := none, compoundBuf := [], str := ["a", "a"], capacity := 2,
    readP := true }

theorem twoStrings_honest : (∀ v ∈ [twoStrings, twoStrings], v.capacity ≤ v.elements) ∧
    ∀ v ∈ [twoStrings, twoStrings], ∀ row ∈ [twoStrings, twoStrings], ∀ start,
      (v.Passes row start → v.Slices row start) → v.set_value_slice_from_row_major_vector row start ≠ .undefined := by
  have duplicates : twoStrings.Duplicates :=
    ⟨fun c stored => (by cases stored), fun _ strings => (by cases strings)⟩
  have run : Run (Under (fun pool call => call.Keeps (fun _ => .dods_str_c) pool) (Step fun _ => .dods_str_c)) []
      [.create (some .dods_str_c), .on 0 (.set_value_str (some fun _ => "a") 2), .copy 0] [twoStrings, twoStrings] := by
    refine .cons ⟨trivial, rfl⟩ (.cons ⟨fun _ _ => trivial, rfl⟩ (.cons ⟨fun v at_ => .inr ?_, rfl⟩ (.nil _)))
    exact Option.some.inj at_ ▸ duplicates
  exact capacity_honest run

/-- Room for two strings has been reserved, and there is none that the slice could be assigned to. -/
theorem reserved_strings_absent : ∃ (calls : List (Call Unit)) (pool : List (Vector Unit)),
    Run (Step fun _ => .dods_str_c) [] calls pool ∧ ∃ v ∈ pool, v.elements < v.capacity ∧
      ∃ row ∈ pool, v.Passes row 1 ∧ v.set_value_slice_from_row_major_vector row 1 = .undefined := by
  let into : Vector Unit := { (ofProto (some .dods_str_c) : Vector Unit) with capacity := 2 }
  let row : Vector Unit :=
    { (ofProto (some .dods_str_c) : Vector Unit) with length := 1, str := ["a"], capacity := 1, readP := true }
  have run : Run (Step fun _ : Unit => .dods_str_c) []
      [.create (some .dods_str_c), .create (some .dods_str_c), .on 0 (.reserve_value_capacity 2),
        .on 1 (.set_value_str (some fun _ => "a") 1)] [into, row] :=
    .cons rfl (.cons rfl (.cons rfl (.cons rfl (.nil _))))
  refine ⟨_, _, run, into, List.mem_cons_self, by decide, row, List.mem_cons_of_mem _ List.mem_cons_self, ?_, ?_⟩
  · exact ⟨⟨.dods_str_c, .dods_str_c, rfl, rfl, rfl⟩, by decide, by decide, by decide⟩
  · decide

end Vector

end Libdap.Dap2
