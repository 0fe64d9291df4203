import Libdap.Http.Residents

/-! # Sweeping the table

What the functors do that delete entries for which a condition holds: a sweep takes the
entries without readers that meet it out of the table, and what they took on disk off
the size.
-/

namespace Libdap.Http

open Ints Program

/-- What is to be deleted: entries without readers for which the condition holds. -/
def Cache.condemned (condition : CacheEntry → Bool) (s : Cache) (e : Pointer) : Bool :=
  decide ((s.heap e).readers = 0) && condition (s.heap e)

def Cache.diskSpace (s : Cache) (e : Pointer) : Nat := u32 (entry_disk_space (i32 (s.heap e).size) s.block_size)

/-- What entries take on disk. -/
def Cache.spaceOf (s : Cache) (es : List Pointer) : Nat := (es.map s.diskSpace).sum

theorem bind_run {α β : Type} {p : Act α} {f : α → Act β} {s s' : Cache} {a : α} (first : p.run s = .done a s') :
    (p >>= f).run s = (f a).run s' := by
  change (p.run s).andThen f = _
  rw [first]
  rfl

theorem bind_threw {α β : Type} {p : Act α} {f : α → Act β} {s s' : Cache} {e : String}
    (first : p.run s = .threw e s') : (p >>= f).run s = .threw e s' := by
  change (p.run s).andThen f = _
  rw [first]
  rfl

theorem read_bind {α β : Type} (f : Cache → α) (g : α → Act β) (s : Cache) :
    (read f >>= g).run s = (g (f s)).run s := rfl

section

variable (condition : CacheEntry → Bool)

theorem deleteUnread_run (s : Cache) (e : Pointer) : (deleteUnread condition e).run s =
    if s.condemned condition e then .done true { s with current_size := s.current_size - s.diskSpace e }
    else .done false s := by
  by_cases is : (s.heap e).readers = 0 ∧ condition (s.heap e) = true
  · have condemned : s.condemned condition e = true := by
      rw [Cache.condemned, is.1, is.2]
      rfl
    have removed : (remove_cache_entry e).run s = .done () { s with current_size := s.current_size - s.diskSpace e } := by
      rw [remove_cache_entry, entryAt, read_bind, if_neg (not_not.mpr is.1)]
      change Progress.done () { s with current_size := if s.current_size < s.diskSpace e then 0
        else s.current_size - s.diskSpace e } = _
      by_cases less : s.current_size < s.diskSpace e
      · rw [if_pos less, Nat.sub_eq_zero_of_le (Nat.le_of_lt less)]
      · rw [if_neg less]
    rw [deleteUnread, entryAt, read_bind, if_pos is, condemned, bind_run removed]
    rfl
  · have kept : s.condemned condition e = false := by
      rw [Cache.condemned, Bool.and_eq_false_iff, decide_eq_false_iff_not]
      rw [not_and_or, Bool.not_eq_true] at is
      exact is
    rw [deleteUnread, entryAt, read_bind, if_neg is, kept]
    rfl

/-- What is left of a cell. -/
def Cache.sweptCell (s : Cache) (cell : Option Pointer) : Option Pointer :=
  cell.filter fun e => !s.condemned condition e

/-- What of some cells is deleted. -/
def Cache.condemnedIn (s : Cache) (cells : List (Option Pointer)) : List Pointer :=
  cells.reduceOption.filter (s.condemned condition)

variable {condition}

theorem forEntry_run {s : Cache} {slot : Nat} {before after : List (Option Pointer)} {cell : Option Pointer}
    (cells : s.cache_table slot = before ++ cell :: after) :
    (forEntry (deleteUnread condition) slot before.length).run s = .done () { s with
      cache_table := Function.update s.cache_table slot (before ++ s.sweptCell condition cell :: after)
      current_size := s.current_size - s.spaceOf (s.condemnedIn condition [cell]) } := by
  have same : s.cache_table = Function.update s.cache_table slot (before ++ cell :: after) := by
    rw [← cells, Function.update_eq_self]
  have here : (s.cache_table slot)[before.length]? = some cell := by
    rw [cells, List.getElem?_append_right (Nat.le_refl _), Nat.sub_self]
    rfl
  rw [forEntry, read_bind, here]
  cases cell with
  | none => exact congrArg (fun table => Progress.done () { s with cache_table := table }) same
  | some e =>
    have run := deleteUnread_run condition s e
    cases is : s.condemned condition e with
    | false =>
      rw [is] at run
      have kept : s.sweptCell condition (some e) = some e := by
        simp only [Cache.sweptCell, Option.filter, is, Bool.not_false, ↓reduceIte]
      have none_ : s.condemnedIn condition [some e] = [] := by
        simp only [Cache.condemnedIn, List.reduceOption_singleton, Option.toList_some, List.filter, is]
      rw [kept, none_]
      change ((deleteUnread condition e >>= _).run s) = _
      rw [bind_run run]
      exact congrArg (fun table => Progress.done () { s with cache_table := table }) same
    | true =>
      rw [is] at run
      have gone : s.sweptCell condition (some e) = none := by
        simp only [Cache.sweptCell, Option.filter, is, Bool.not_true, Bool.false_eq_true, ↓reduceIte]
      have one : s.spaceOf (s.condemnedIn condition [some e]) = s.diskSpace e := by
        simp only [Cache.condemnedIn, List.reduceOption_singleton, Option.toList_some, List.filter, is, Cache.spaceOf,
          List.map_cons, List.map_nil, List.sum_singleton]
      have set_ : (s.cache_table slot).set before.length none = before ++ none :: after := by
        rw [cells, List.set_append_right _ _ (Nat.le_refl _), Nat.sub_self]
        rfl
      rw [gone, one, ← set_]
      change ((deleteUnread condition e >>= _).run s) = _
      rw [bind_run run]
      rfl

theorem spaceOf_append (s : Cache) (es es' : List Pointer) : s.spaceOf (es ++ es') = s.spaceOf es + s.spaceOf es' := by
  rw [Cache.spaceOf, List.map_append, List.sum_append]
  rfl

theorem condemnedIn_cons (s : Cache) (cell : Option Pointer) (cells : List (Option Pointer)) :
    s.condemnedIn condition (cell :: cells) = s.condemnedIn condition [cell] ++ s.condemnedIn condition cells := by
  rw [Cache.condemnedIn, ← List.singleton_append, List.reduceOption_append, List.filter_append]
  rfl

theorem forEntries_run {slot : Nat} (after : List (Option Pointer)) {before : List (Option Pointer)} {s : Cache}
    (cells : s.cache_table slot = before ++ after) :
    (forM (List.range' before.length after.length) (forEntry (deleteUnread condition) slot) : Act Unit).run s =
      .done () { s with
        cache_table := Function.update s.cache_table slot (before ++ after.map (s.sweptCell condition))
        current_size := s.current_size - s.spaceOf (s.condemnedIn condition after) } := by
  induction after generalizing before s with
  | nil =>
    have same : s.cache_table = Function.update s.cache_table slot (before ++ []) := by
      rw [← cells, Function.update_eq_self]
    exact congrArg (fun table => Progress.done () { s with cache_table := table }) same
  | cons cell after ih =>
    rw [List.length_cons, List.range'_succ, List.forM_cons, bind_run (forEntry_run cells)]
    have next := @ih (before ++ [s.sweptCell condition cell]) { s with
      cache_table := Function.update s.cache_table slot (before ++ s.sweptCell condition cell :: after)
      current_size := s.current_size - s.spaceOf (s.condemnedIn condition [cell]) }
      (by simp only [Function.update_self, List.append_assoc, List.singleton_append])
    rw [List.length_append, List.length_singleton] at next
    rw [next, condemnedIn_cons s cell after, spaceOf_append, ← Nat.sub_sub, List.map_cons]
    simp only [Function.update_idem, List.append_assoc, List.singleton_append]
    rfl

/-- A slot with what is condemned taken out. -/
def Cache.sweptSlot (condition : CacheEntry → Bool) (s : Cache) (slot : Nat) : List (Option Pointer) :=
  ((s.cache_table slot).map (s.sweptCell condition)).filter Option.isSome

theorem forSlot_run (s : Cache) (slot : Nat) : (forSlot (deleteUnread condition) slot).run s = .done () { s with
    cache_table := Function.update s.cache_table slot (s.sweptSlot condition slot)
    current_size := s.current_size - s.spaceOf (s.condemnedIn condition (s.cache_table slot)) } := by
  have entries := @forEntries_run condition slot (s.cache_table slot) [] s (List.nil_append _).symm
  rw [List.length_nil] at entries
  rw [forSlot, read_bind, List.range_eq_range', bind_run entries]
  change Progress.done () _ = _
  simp only [List.nil_append, Function.update_idem, Function.update_self, Cache.sweptSlot]

theorem forSlots_run {slots : List Nat} (distinct : slots.Nodup) (s : Cache) :
    (forM slots (forSlot (deleteUnread condition)) : Act Unit).run s = .done () { s with
      cache_table := fun slot => if slot ∈ slots then s.sweptSlot condition slot else s.cache_table slot
      current_size := s.current_size -
        s.spaceOf (slots.flatMap fun slot => s.condemnedIn condition (s.cache_table slot)) } := by
  induction slots generalizing s with
  | nil => rfl
  | cons slot slots ih =>
    rw [List.nodup_cons] at distinct
    rw [List.forM_cons, bind_run (forSlot_run s slot), ih distinct.2]
    have apart : ∀ other ∈ slots, other ≠ slot := fun other mem same => distinct.1 (same ▸ mem)
    congr 2
    · funext other
      by_cases same : other = slot
      · subst same
        simp only [distinct.1, List.mem_cons_self, Function.update_self, ↓reduceIte]
      · simp only [List.mem_cons, same, false_or, Cache.sweptSlot, Function.update_of_ne same]
        rfl
    · have later : (slots.flatMap fun other => s.condemnedIn condition
          (Function.update s.cache_table slot (s.sweptSlot condition slot) other)) =
          slots.flatMap fun other => s.condemnedIn condition (s.cache_table other) := by
        apply List.flatMap_congr
        intro other mem
        rw [Function.update_of_ne (apart other mem)]
      rw [List.flatMap_cons, spaceOf_append, ← Nat.sub_sub, ← later]
      rfl

end

/-- A state after the entries without readers for which a condition holds have been deleted. -/
structure Swept (condition : CacheEntry → Bool) (s s' : Cache) : Prop where
  residents : s'.residents = s.residents.filter fun e => !s.condemned condition e
  size : s'.current_size = s.current_size - s.spaceOf (s.residents.filter (s.condemned condition))
  rest : s' = { s with cache_table := s'.cache_table, current_size := s'.current_size }

theorem Swept.of_changes {condition : CacheEntry → Bool} {s : Cache} {table : Nat → List (Option Pointer)} {size : Nat}
    (left : { s with cache_table := table, current_size := size }.residents =
      s.residents.filter fun e => !s.condemned condition e)
    (smaller : size = s.current_size - s.spaceOf (s.residents.filter (s.condemned condition))) :
    Swept condition s { s with cache_table := table, current_size := size } :=
  ⟨left, smaller, rfl⟩

theorem reduceOption_sweptSlot (condition : CacheEntry → Bool) (s : Cache) (slot : Nat) :
    (s.sweptSlot condition slot).reduceOption =
      (s.cache_table slot).reduceOption.filter fun e => !s.condemned condition e := by
  rw [Cache.sweptSlot, reduceOption_filter]
  induction s.cache_table slot with
  | nil => rfl
  | cons cell cells ih =>
    cases cell with
    | none => exact ih
    | some e =>
      rw [List.map_cons, List.reduceOption_cons_of_some, List.filter_cons, ← ih, Cache.sweptCell, Option.filter]
      cases s.condemned condition e with
      | true => rfl
      | false => rfl

theorem forSlots_swept (condition : CacheEntry → Bool) (s : Cache) :
    ∃ s', (forSlots (deleteUnread condition)).run s = .done () s' ∧ Swept condition s s' := by
  have run := @forSlots_run condition (List.range CACHE_TABLE_SIZE) List.nodup_range s
  rw [forSlots, run]
  refine ⟨_, rfl, Swept.of_changes ?_ ?_⟩
  · rw [Cache.residents, Cache.residents, List.filter_flatMap]
    apply List.flatMap_congr
    intro slot mem
    simp only [mem, ↓reduceIte]
    exact reduceOption_sweptSlot condition s slot
  · rw [Cache.residents, List.filter_flatMap]
    rfl

namespace Swept

variable {c d : CacheEntry → Bool} {s s' s'' : Cache}

theorem heap (swept : Swept c s s') : s'.heap = s.heap := by
  rw [swept.rest]

theorem condemned (swept : Swept c s s') : s'.condemned d = s.condemned d := by
  funext e
  rw [Cache.condemned, Cache.condemned, swept.heap]

theorem spaceOf (swept : Swept c s s') : s'.spaceOf = s.spaceOf := by
  funext es
  rw [swept.rest]
  rfl

theorem stopGC (swept : Swept c s s') : s'.stopGC =
    { s with current_size := s.current_size - s.spaceOf (s.residents.filter (s.condemned c)) }.stopGC := by
  rw [← swept.size, swept.rest]
  rfl

theorem startGC (swept : Swept c s s') : s'.startGC =
    { s with current_size := s.current_size - s.spaceOf (s.residents.filter (s.condemned c)) }.startGC := by
  rw [← swept.size, swept.rest]
  rfl

/-- An entry with readers stays. -/
theorem locked_stay (swept : Swept c s s') {e : Pointer} (mem : e ∈ s.residents) (locked : (s.heap e).readers ≠ 0) :
    e ∈ s'.residents := by
  rw [swept.residents, List.mem_filter]
  refine ⟨mem, ?_⟩
  rw [Cache.condemned, decide_eq_false locked]
  rfl

theorem none (s : Cache) : Swept (fun _ => false) s s := by
  have nobody : s.condemned (fun _ => false) = fun _ => false := by
    funext e
    exact Bool.and_false _
  refine ⟨?_, ?_, rfl⟩
  · rw [nobody]
    exact (List.filter_eq_self.mpr fun _ _ => rfl).symm
  · rw [nobody, List.filter_false]
    rfl

theorem congr (swept : Swept c s s') (same : ∀ e ∈ s.residents, c (s.heap e) = d (s.heap e)) : Swept d s s' := by
  have agree : ∀ e ∈ s.residents, s.condemned c e = s.condemned d e := by
    intro e mem
    rw [Cache.condemned, Cache.condemned, same e mem]
  refine ⟨?_, ?_, swept.rest⟩
  · rw [swept.residents]
    apply List.filter_congr
    intro e mem
    rw [agree e mem]
  · rw [swept.size, List.filter_congr agree]

theorem trans (first : Swept c s s') (second : Swept d s' s'') : Swept (fun e => c e || d e) s s'' := by
  have either : ∀ e, s.condemned (fun e => c e || d e) e = (s.condemned c e || s.condemned d e) := by
    intro e
    exact Bool.and_or_distrib_left ..
  refine ⟨?_, ?_, ?_⟩
  · rw [second.residents, first.residents, first.condemned, List.filter_filter]
    apply List.filter_congr
    intro e _
    rw [either, Bool.not_or, Bool.and_comm]
  · have parts : ∀ es : List Pointer, s.spaceOf (es.filter (s.condemned fun e => c e || d e)) =
        s.spaceOf (es.filter (s.condemned c)) +
          s.spaceOf ((es.filter fun e => !s.condemned c e).filter (s.condemned d)) := by
      intro es
      induction es with
      | nil => rfl
      | cons e es ih =>
        simp only [Cache.spaceOf] at ih
        simp only [List.filter_cons, either]
        cases s.condemned c e with
        | true =>
          simp only [Cache.spaceOf, Bool.true_or, Bool.not_true, Bool.false_eq_true, ↓reduceIte, List.map_cons,
            List.sum_cons, ih]
          omega
        | false =>
          cases is : s.condemned d e with
          | true =>
            simp only [Cache.spaceOf, Bool.or_true, Bool.not_false, Bool.false_eq_true, ↓reduceIte, List.map_cons,
              List.sum_cons, List.filter_cons, is, ih]
            omega
          | false =>
            simp only [Cache.spaceOf, Bool.or_false, Bool.not_false, Bool.false_eq_true, ↓reduceIte,
              List.filter_cons, is, ih]
    rw [second.size, first.size, first.residents, first.condemned, first.spaceOf, Nat.sub_sub, parts]
  · rw [second.rest, first.rest]

end Swept

end Libdap.Http
