import Libdap.Http.Cache

/-! # Readers and writers of entries

While a call has the interface it may write one entry. What every piece of a call does to the locks and to
the counts of readers is told for each of them, and where it stops to take a lock.
-/

namespace Libdap.Http

open Program

/-- The locks and the readers agree with a count of the readers and with what is bound to open files. -/
structure Books (inside : Bool) (writer : Option Pointer) (count : Pointer → Nat)
    (bound : List (File × Option Pointer)) (s : Cache) : Prop where
  interface : s.locked .d_cache_mutex = inside
  readers : ∀ e < s.next, (s.heap e).readers = count e
  reading : ∀ e < s.next, s.locked (.d_response_lock e) = decide (0 < count e ∨ writer = some e)
  writing : ∀ e < s.next, s.locked (.d_response_write_lock e) = decide (writer = some e)
  resident : ∀ slot e, some e ∈ s.cache_table slot → e < s.next
  unborn : ∀ e, s.next ≤ e → count e = 0
  written : ∀ e, writer = some e → e < s.next ∧ count e = 0
  entries : s.locked_entries = bound

/-- Within a call an orderly one takes only locks that are free. -/
def Orderly (strict : Bool) (m : Mutex) (s : Cache) : Prop :=
  strict = true → s.locked .d_cache_mutex = true ∧ m ≠ .d_cache_mutex ∧ s.locked m = false

section

variable {inside strict : Bool} {writer : Option Pointer} {count : Pointer → Nat} {bound : List (File × Option Pointer)}
  {s s' : Cache} {e : Pointer}

/-- What has no part in the books. -/
theorem Books.of_same (books : Books inside writer count bound s) (locked : s'.locked = s.locked) (next : s'.next = s.next)
    (readers : ∀ e < s.next, (s'.heap e).readers = (s.heap e).readers)
    (table : ∀ slot e, some e ∈ s'.cache_table slot → e < s.next) (entries : s'.locked_entries = s.locked_entries) :
    Books inside writer count bound s' where
  interface := locked ▸ books.interface
  readers := fun e born => (readers e (next ▸ born)).trans (books.readers e (next ▸ born))
  reading := fun e born => locked ▸ books.reading e (next ▸ born)
  writing := fun e born => locked ▸ books.writing e (next ▸ born)
  resident := fun slot e mem => next ▸ table slot e mem
  unborn := fun e above => books.unborn e (next ▸ above)
  written := fun e is => next ▸ books.written e is
  entries := entries.trans books.entries

theorem Books.modified (books : Books inside writer count bound s) (e : Pointer) {f : CacheEntry → CacheEntry}
    (same : (f (s.heap e)).readers = (s.heap e).readers) :
    Books inside writer count bound { s with heap := Function.update s.heap e (f (s.heap e)) } := by
  refine books.of_same rfl rfl (fun e' _ => ?_) books.resident rfl
  change (Function.update s.heap e (f (s.heap e)) e').readers = (s.heap e').readers
  by_cases here : e' = e
  · subst here
    rw [Function.update_self, same]
  · rw [Function.update_of_ne here]

/-- A change of an entry, and then the rest. -/
theorem modify_seq {α : Type} {stops : Mutex → Cache → Prop} {post : Except String α → Cache → Prop} {f : CacheEntry → CacheEntry}
    {g : Unit → Act α} (books : Books inside writer count bound s) (same : (f (s.heap e)).readers = (s.heap e).readers)
    (rest : ∀ s', Books inside writer count bound s' → s'.heap e = f (s.heap e) → ((g ()).run s').Ends stops post) :
    ((modifyEntry e f >>= g).run s).Ends stops post :=
  rest _ (books.modified e same) (Function.update_self e (f (s.heap e)) s.heap)

/-- A new entry without readers. -/
theorem newEntry_books {stops : Mutex → Cache → Prop} (books : Books inside writer count bound s) {entry : CacheEntry}
    (unread : entry.readers = 0) : ((newEntry entry).run s).Ends stops fun r s' =>
      ∃ p, r = .ok p ∧ p < s'.next ∧ count p = 0 ∧ s'.heap p = entry ∧ s'.max_entry_size = s.max_entry_size ∧
        Books inside writer count bound s' := by
  refine ⟨s.next, rfl, Nat.lt_succ_self _, books.unborn _ (Nat.le_refl _), ?_, rfl, ?_⟩
  · exact Function.update_self s.next entry s.heap
  have other : writer ≠ some s.next := fun is => absurd (books.written _ is).1 (Nat.lt_irrefl _)
  have free := books.unborn _ (Nat.le_refl s.next)
  constructor
  · exact books.interface
  · intro e born
    by_cases new : e = s.next
    · subst new
      exact (congrArg CacheEntry.readers (Function.update_self ..)).trans (by rw [unread, free]; rfl)
    · exact (congrArg CacheEntry.readers (Function.update_of_ne new ..)).trans
        (books.readers e (Nat.lt_of_le_of_ne (Nat.le_of_lt_succ born) new))
  · intro e born
    by_cases new : e = s.next
    · subst new
      simp [setLocked, free, other]
    · have before := books.reading e (Nat.lt_of_le_of_ne (Nat.le_of_lt_succ born) new)
      simpa [setLocked, new] using before
  · intro e born
    by_cases new : e = s.next
    · subst new
      simp [setLocked, other]
    · have before := books.writing e (Nat.lt_of_le_of_ne (Nat.le_of_lt_succ born) new)
      simpa [setLocked, new] using before
  · exact fun slot e mem => Nat.lt_succ_of_lt (books.resident slot e mem)
  · exact fun e above => books.unborn e (Nat.le_of_succ_le above)
  · exact fun e is => ⟨Nat.lt_succ_of_lt (books.written e is).1, (books.written e is).2⟩
  · exact books.entries

/-- An entry is locked for writing by a call that has the interface. An orderly call does this only to
entries without readers. -/
theorem lock_write_response_books (books : Books true none count bound s) (born : e < s.next)
    (idle : strict = true → count e = 0) : ((lock_write_response e).run s).Ends (Orderly strict) fun r s' =>
      r = .ok () ∧ count e = 0 ∧ s' = { s with locked := s'.locked } ∧ Books true (some e) count bound s' := by
  have unlocked : strict = true → s.locked (.d_response_lock e) = false := by
    intro is
    rw [books.reading e born, idle is]
    rfl
  have unwritten : s.locked (.d_response_write_lock e) = false := by
    rw [books.writing e born]
    rfl
  refine ⟨fun is => ⟨books.interface, Mutex.noConfusion, unlocked is⟩, fun free => ?_⟩
  have unread : count e = 0 := by
    have none_ : s.locked (.d_response_lock e) = false := free
    rw [books.reading e born, decide_eq_false_iff_not, not_or] at none_
    exact Nat.eq_zero_of_not_pos none_.1
  refine ⟨fun _ => ⟨?_, Mutex.noConfusion, ?_⟩, fun _ => ⟨rfl, unread, rfl, ?_⟩⟩
  · simpa [setLocked] using books.interface
  · simpa [setLocked] using unwritten
  · constructor
    · simpa [setLocked] using books.interface
    · exact books.readers
    · intro e' born'
      by_cases same : e' = e
      · subst same
        simp [setLocked]
      · simpa [setLocked, same, Ne.symm same] using books.reading e' born'
    · intro e' born'
      by_cases same : e' = e
      · subst same
        simp [setLocked]
      · simpa [setLocked, same, Ne.symm same] using books.writing e' born'
    · exact books.resident
    · exact books.unborn
    · rintro e' is
      obtain rfl := Option.some.inj is
      exact ⟨born, unread⟩
    · exact books.entries

theorem unlock_write_response_books {stops : Mutex → Cache → Prop} (books : Books inside (some e) count bound s) :
    ((unlock_write_response e).run s).Ends stops fun r s' =>
      r = .ok () ∧ s' = { s with locked := s'.locked } ∧ Books inside none count bound s' := by
  refine ⟨rfl, rfl, ?_⟩
  obtain ⟨born, unread⟩ := books.written e rfl
  constructor
  · simpa [setLocked] using books.interface
  · exact books.readers
  · intro e' born'
    by_cases same : e' = e
    · subst same
      simp [setLocked, unread]
    · simpa [setLocked, same, Ne.symm same] using books.reading e' born'
  · intro e' born'
    by_cases same : e' = e
    · subst same
      simp [setLocked]
    · simpa [setLocked, same, Ne.symm same] using books.writing e' born'
  · exact books.resident
  · exact books.unborn
  · rintro e' is
    cases is
  · exact books.entries

/-- The counts with another number of readers of an entry. -/
theorem Books.of_readers (books : Books inside none count bound s) (born : e < s.next) {n : Nat}
    (entry : CacheEntry) (readers : entry.readers = n) {locked : Mutex → Bool}
    (interface : locked .d_cache_mutex = inside) (reading : locked (.d_response_lock e) = decide (0 < n))
    (writing : locked (.d_response_write_lock e) = false)
    (others : ∀ e', e' ≠ e → locked (.d_response_lock e') = s.locked (.d_response_lock e') ∧
      locked (.d_response_write_lock e') = s.locked (.d_response_write_lock e')) :
    Books inside none (Function.update count e n) bound
      { s with heap := Function.update s.heap e entry, locked := locked } := by
  constructor
  · exact interface
  · intro e' born'
    change (Function.update s.heap e entry e').readers = _
    by_cases same : e' = e
    · subst same
      rw [Function.update_self, Function.update_self, readers]
    · rw [Function.update_of_ne same, Function.update_of_ne same]
      exact books.readers e' born'
  · intro e' born'
    change locked _ = _
    by_cases same : e' = e
    · subst same
      rw [reading, Function.update_self]
      simp
    · rw [(others e' same).1, Function.update_of_ne same]
      exact books.reading e' born'
  · intro e' born'
    change locked _ = _
    by_cases same : e' = e
    · subst same
      rw [writing]
      rfl
    · rw [(others e' same).2]
      exact books.writing e' born'
  · exact books.resident
  · intro e' above
    have other : e' ≠ e := by
      rintro rfl
      exact absurd born (Nat.not_lt.mpr above)
    rw [Function.update_of_ne other]
    exact books.unborn e' above
  · rintro e' is
    cases is
  · exact books.entries

theorem lock_read_response_books (books : Books true none count bound s) (born : e < s.next) :
    ((lock_read_response e).run s).Ends (Orderly strict) fun r s' =>
      r = .ok () ∧ e < s'.next ∧ Books true none (Function.update count e (count e + 1)) bound s' := by
  have unwritten : s.locked (.d_response_write_lock e) = false := by
    rw [books.writing e born]
    rfl
  have one : (((s.heap e).readers + 1 : Int)) = (count e + 1 : Nat) := by
    rw [books.readers e born]
    rfl
  rw [lock_read_response, ends_bind, ends_TRYLOCK]
  cases taken : isLocked s (Mutex.d_response_lock e) with
  | true =>
      refine ⟨fun _ => ⟨books.interface, Mutex.noConfusion, unwritten⟩, fun _ => ⟨rfl, born, ?_⟩⟩
      have locks : Function.update (Function.update s.locked (.d_response_write_lock e) true)
          (.d_response_write_lock e) false = s.locked := by
        rw [Function.update_idem, ← unwritten, Function.update_eq_self]
      refine Books.of_readers books born _ one ?_ ?_ ?_ ?_
      · exact (congrFun locks _).trans books.interface
      · exact (congrFun locks _).trans (taken.trans (decide_eq_true (Nat.succ_pos _)).symm)
      · exact (congrFun locks _).trans unwritten
      · exact fun e' _ => ⟨congrFun locks (.d_response_lock e'), congrFun locks (.d_response_write_lock e')⟩
  | false =>
      refine ⟨rfl, born, ?_⟩
      refine Books.of_readers books born _ one ?_ ?_ ?_ ?_
      · simpa [setLocked] using books.interface
      · simp [setLocked]
      · simpa [setLocked] using unwritten
      · intro e' other
        simp [setLocked, other]

theorem unlock_read_response_books {stops : Mutex → Cache → Prop} (books : Books inside none count bound s)
    (born : e < s.next) {n : Nat} (read : count e = n + 1) : ((unlock_read_response e).run s).Ends stops fun r s' =>
      r = .ok () ∧ s'.next = s.next ∧ Books inside none (Function.update count e n) bound s' := by
  have less : (s.heap e).readers - 1 = (n : Int) := by
    rw [books.readers e born, read]
    omega
  have unwritten : s.locked (.d_response_write_lock e) = false := by
    rw [books.writing e born]
    rfl
  have held : s.locked (.d_response_lock e) = true := by
    rw [books.reading e born, read]
    simp
  have now : (Function.update s.heap e { s.heap e with readers := (s.heap e).readers - 1 } e).readers = n := by
    rw [Function.update_self]
    exact less
  rw [unlock_read_response, ends_bind]
  change Progress.Ends stops _ ((if (Function.update s.heap e
    { s.heap e with readers := (s.heap e).readers - 1 } e).readers = 0 then UNLOCK (.d_response_lock e) else
    (pure () : Act Unit)).run _)
  rw [now]
  cases n with
  | zero =>
      refine ⟨rfl, rfl, Books.of_readers books born _ less ?_ ?_ ?_ ?_⟩
      · simpa [setLocked] using books.interface
      · simp
      · simpa [setLocked] using unwritten
      · intro e' other
        simp [other]
  | succ n =>
      rw [if_neg (by omega)]
      refine ⟨rfl, rfl, Books.of_readers books born _ less ?_ ?_ ?_ ?_⟩
      · exact books.interface
      · exact held.trans (decide_eq_true (Nat.succ_pos _)).symm
      · exact unwritten
      · exact fun e' _ => ⟨rfl, rfl⟩

/-- A table with one more entry. -/
def Cache.added (s : Cache) (e : Pointer) : Cache :=
  { s with
    cache_table := Function.update s.cache_table (s.heap e).hash.toNat (s.cache_table (s.heap e).hash.toNat ++ [some e])
    current_size := Dap4.u64 (s.current_size + entry_disk_space (Ints.i32 (s.heap e).size) s.block_size)
    new_entries := s.new_entries + 1 }

theorem add_entry_run {s : Cache} {e : Pointer} (fits : 0 ≤ (s.heap e).hash ∧ (s.heap e).hash ≤ CACHE_TABLE_SIZE - 1) :
    (add_entry_to_cache_table e).run s = .done () (s.added e) := by
  have inside : ¬((CACHE_TABLE_SIZE : Int) - 1 < (s.heap e).hash ∨ (s.heap e).hash < 0) := by omega
  change (if (CACHE_TABLE_SIZE : Int) - 1 < (s.heap e).hash ∨ (s.heap e).hash < 0 then
    (throw "Hash value too large!" : Act Unit) else write _).run s = _
  rw [if_neg inside]
  rfl

theorem Books.added (books : Books inside writer count bound s) (born : e < s.next) :
    Books inside writer count bound (s.added e) := by
  refine books.of_same rfl rfl (fun _ _ => rfl) (fun slot e' mem => ?_) rfl
  change some e' ∈ Function.update s.cache_table _ _ slot at mem
  by_cases here : slot = (s.heap e).hash.toNat
  · subst here
    rw [Function.update_self, List.mem_append] at mem
    rcases mem with old | new
    · exact books.resident _ e' old
    · obtain rfl := Option.some.inj (List.mem_singleton.mp new)
      exact born
  · rw [Function.update_of_ne here] at mem
    exact books.resident slot e' mem

theorem remove_cache_entry_run (unread : (s.heap e).readers = 0) : (remove_cache_entry e).run s = .done () { s with
    current_size := if s.current_size < Ints.u32 (entry_disk_space (Ints.i32 (s.heap e).size) s.block_size) then 0
      else s.current_size - Ints.u32 (entry_disk_space (Ints.i32 (s.heap e).size) s.block_size) } := by
  unfold remove_cache_entry
  change (if (s.heap e).readers ≠ 0 then (throw "Tried to delete a cache entry that is in use." : Act Unit)
    else write _).run s = _
  rw [if_neg (not_not.mpr unread)]
  rfl

theorem keeps_remove_cache_entry {stops : Mutex → Cache → Prop} (e : Pointer) :
    Keeps stops (Books inside writer count bound) (remove_cache_entry e) := by
  constructor
  intro s books
  rw [remove_cache_entry, ends_bind]
  change Progress.Ends stops _ ((if (s.heap e).readers ≠ 0 then _ else _ : Act Unit).run s)
  split
  · exact books
  · exact books.of_same rfl rfl (fun _ _ => rfl) books.resident rfl

theorem keeps_deleteUnread {stops : Mutex → Cache → Prop} (condition : CacheEntry → Bool) (e : Pointer) :
    Keeps stops (Books inside writer count bound) (deleteUnread condition e) := by
  apply keeps_bind (keeps_read _)
  intro entry
  apply keeps_ite
  · exact keeps_bind (keeps_remove_cache_entry e) fun _ => keeps_pure true
  · exact keeps_pure false

end

/-! ## Walks over the table -/

def Cache.nulled (s : Cache) (slot i : Nat) : Cache :=
  { s with cache_table := Function.update s.cache_table slot ((s.cache_table slot).set i none) }

def Cache.erased (s : Cache) (slot : Nat) : Cache :=
  { s with cache_table := Function.update s.cache_table slot ((s.cache_table slot).filter Option.isSome) }

section

variable {stops : Mutex → Cache → Prop} {Inv : Cache → Prop} {functor : Pointer → Act Bool} {slot : Nat}

/-- What a functor does to the entry of a cell, when its pointer is set to null where it has been deleted. -/
def Visits (stops : Mutex → Cache → Prop) (Inv : Cache → Prop) (functor : Pointer → Act Bool) (slot : Nat) : Prop :=
  ∀ i e s, Inv s → (s.cache_table slot)[i]? = some (some e) → ((functor e).run s).Ends stops fun r s' =>
    match r with
    | .ok true => Inv (s'.nulled slot i)
    | _ => Inv s'

theorem keeps_forEntry (visits : Visits stops Inv functor slot) (i : Nat) : Keeps stops Inv (forEntry functor slot i) := by
  constructor
  intro s inv
  rw [forEntry]
  apply ends_read
  intro cell here
  cases cell with
  | none => exact inv
  | some entry =>
      cases entry with
      | none => exact inv
      | some e =>
          refine ends_seq (fun deleted s' => if deleted then Inv (s'.nulled slot i) else Inv s')
            ((visits i e s inv here).mono fun r s' after => ?_) fun deleted s' after => ?_
          · cases r with
            | error _ => exact after
            | ok deleted => cases deleted <;> exact after
          · cases deleted <;> exact after

theorem keeps_forSlot (visits : Visits stops Inv functor slot) (erases : ∀ s, Inv s → Inv (s.erased slot)) :
    Keeps stops Inv (forSlot functor slot) := by
  apply keeps_bind (keeps_read _)
  intro n
  exact keeps_bind (keeps_forM _ fun i _ => keeps_forEntry visits i) fun _ => keeps_write erases

theorem keeps_forSlots (visits : ∀ slot < CACHE_TABLE_SIZE, Visits stops Inv functor slot)
    (erases : ∀ slot < CACHE_TABLE_SIZE, ∀ s, Inv s → Inv (s.erased slot)) : Keeps stops Inv (forSlots functor) := by
  apply keeps_forM
  intro slot mem
  have inside := List.mem_range.mp mem
  exact keeps_forSlot (visits slot inside) (erases slot inside)

end

section

variable {inside strict : Bool} {writer : Option Pointer} {count : Pointer → Nat} {bound : List (File × Option Pointer)}
  {s s' : Cache} {e : Pointer} {stops : Mutex → Cache → Prop}

theorem mem_nulled {slot i other : Nat} (mem : some e ∈ (s.nulled slot i).cache_table other) : some e ∈ s.cache_table other := by
  change some e ∈ Function.update s.cache_table slot ((s.cache_table slot).set i none) other at mem
  by_cases same : other = slot
  · subst same
    rw [Function.update_self] at mem
    rcases List.mem_or_eq_of_mem_set mem with old | new
    · exact old
    · cases new
  · rw [Function.update_of_ne same] at mem
    exact mem

theorem mem_erased {slot other : Nat} (mem : some e ∈ (s.erased slot).cache_table other) : some e ∈ s.cache_table other := by
  change some e ∈ Function.update s.cache_table slot ((s.cache_table slot).filter Option.isSome) other at mem
  by_cases same : other = slot
  · subst same
    rw [Function.update_self] at mem
    exact (List.mem_filter.mp mem).1
  · rw [Function.update_of_ne same] at mem
    exact mem

theorem Books.nulled (books : Books inside writer count bound s) (slot i : Nat) :
    Books inside writer count bound (s.nulled slot i) :=
  books.of_same rfl rfl (fun _ _ => rfl) (fun other e mem => books.resident other e (mem_nulled mem)) rfl

theorem Books.erased (books : Books inside writer count bound s) (slot : Nat) :
    Books inside writer count bound (s.erased slot) :=
  books.of_same rfl rfl (fun _ _ => rfl) (fun other e mem => books.resident other e (mem_erased mem)) rfl

/-- A functor that keeps the books whatever it does. -/
theorem visits_of_keeps {functor : Pointer → Act Bool} (keeps : ∀ e, Keeps stops (Books inside writer count bound) (functor e))
    (slot : Nat) : Visits stops (Books inside writer count bound) functor slot := by
  intro i e s books _
  apply ((keeps e).ends s books).mono
  intro r s' books
  cases r with
  | error _ => exact books
  | ok deleted =>
      cases deleted with
      | true => exact books.nulled slot i
      | false => exact books

theorem keeps_forSlots_books {functor : Pointer → Act Bool}
    (keeps : ∀ e, Keeps stops (Books inside writer count bound) (functor e)) :
    Keeps stops (Books inside writer count bound) (forSlots functor) :=
  keeps_forSlots (fun slot _ => visits_of_keeps keeps slot) fun slot _ _ books => books.erased slot

theorem keeps_sweep (condition : CacheEntry → Bool) :
    Keeps stops (Books inside writer count bound) (forSlots (deleteUnread condition)) :=
  keeps_forSlots_books (keeps_deleteUnread condition)

theorem keeps_hitsLoop (rounds : Nat) (hits : Int) : Keeps stops (Books inside writer count bound) (hitsLoop rounds hits) := by
  induction rounds generalizing hits with
  | zero => exact keeps_forever
  | succ rounds ih =>
      unfold hitsLoop
      apply keeps_bind (keeps_read _)
      intro stop
      apply keeps_ite (keeps_pure ())
      apply keeps_bind
      · unfold delete_by_hits DeleteByHits
        exact keeps_sweep _
      · exact fun _ => ih (hits + 1)

theorem keeps_collection (io : Io) : Keeps stops (Books inside writer count bound) (perform_garbage_collection io) := by
  unfold perform_garbage_collection
  apply keeps_bind
  · unfold expired_gc delete_expired_entries DeleteExpired
    apply keeps_bind (keeps_read _)
    exact fun _ => keeps_ite (keeps_pure ()) (keeps_sweep _)
  · intro _
    apply keeps_bind
    · unfold too_big_gc delete_by_size DeleteBySize
      apply keeps_bind (keeps_read _)
      intro _
      apply keeps_bind (keeps_read _)
      exact fun _ => keeps_ite (keeps_sweep _) (keeps_pure ())
    · intro _
      unfold hits_gc
      apply keeps_bind (keeps_read _)
      exact fun _ => keeps_ite (keeps_hitsLoop _ _) (keeps_pure ())

theorem keeps_cache_index_write (file : IndexFile) :
    Keeps stops (Books inside writer count bound) (cache_index_write file) := by
  cases file with
  | written => exact keeps_write fun s books => books.of_same rfl rfl (fun _ _ => rfl) books.resident rfl
  | cannotOpen => exact keeps_bind (keeps_read _) fun _ => keeps_throw _
  | broken left =>
      apply keeps_bind
      · exact keeps_write fun s books => books.of_same rfl rfl (fun _ _ => rfl) books.resident rfl
      · exact fun _ => keeps_throw _

theorem keeps_dump (io : Io) : Keeps stops (Books inside writer count bound) (dump io) := by
  unfold dump
  apply keeps_bind (keeps_read _)
  intro many
  apply keeps_ite
  · apply keeps_bind (keeps_read _)
    intro start
    apply keeps_ite
    · exact keeps_bind (keeps_collection io) fun _ => keeps_cache_index_write io.indexFile
    · exact keeps_cache_index_write io.indexFile
  · exact keeps_pure ()

theorem keeps_delete_all_entries (removed : Bool) :
    Keeps stops (Books inside writer count bound) (delete_all_entries removed) := by
  unfold delete_all_entries DeleteUnlockedCacheEntry
  apply keeps_bind
  · apply keeps_forSlots_books
    intro e
    exact keeps_bind (keeps_remove_cache_entry e) fun _ => keeps_pure true
  · intro _
    exact keeps_write fun s books => books.of_same rfl rfl (fun _ _ => rfl) books.resident rfl

end

end Libdap.Http
