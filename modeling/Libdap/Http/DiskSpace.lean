import Libdap.Http.LockAccounting
import Libdap.Http.Residents
import Mathlib.Algebra.BigOperators.Group.List.Basic
import Mathlib.Data.List.TakeWhile

/-! # What the entries take on disk

The size of the cache is what its entries take on disk, in whole blocks. A size that is a whole number of
blocks is counted with one block too many, and one that does not fit an `int` as something else. Where there is
no such entry, what the pieces of the calls do to the sum is told for each of them.
-/

namespace Libdap.Http

open Program Ints

/-- A size in whole blocks. -/
def roundUp (block size : Nat) : Nat := (size + (block - 1)) / block * block

/-- A size for which the blocks are counted right. -/
def Counted (block size : Nat) : Prop := ¬block ∣ size ∧ roundUp block size < 2 ^ 31

theorem roundUp_of_not_dvd {block size : Nat} (pos : 0 < block) (uneven : ¬block ∣ size) :
    roundUp block size = (size / block + 1) * block := by
  have left : 0 < size % block := Nat.pos_of_ne_zero fun zero => uneven (Nat.dvd_of_mod_eq_zero zero)
  have less := Nat.mod_lt size pos
  have parts := Nat.div_add_mod size block
  unfold roundUp
  congr 1
  apply Nat.div_eq_of_lt_le
  · rw [Nat.add_mul, Nat.one_mul, Nat.mul_comm (size / block)]
    omega
  · rw [Nat.add_mul, Nat.add_mul, Nat.one_mul, Nat.mul_comm (size / block)]
    omega

theorem entry_disk_space_eq {block size : Nat} (pos : 0 < block) (counted : Counted block size) :
    entry_disk_space (i32 size) block = roundUp block size := by
  obtain ⟨uneven, small⟩ := counted
  have rounded := roundUp_of_not_dvd pos uneven
  have least : block ≤ roundUp block size := by
    rw [rounded]
    exact Nat.le_mul_of_pos_left block (Nat.succ_pos _)
  have below : size < roundUp block size := by
    have parts := Nat.div_add_mod size block
    have less := Nat.mod_lt size pos
    rw [rounded, Nat.add_mul, Nat.one_mul, Nat.mul_comm]
    omega
  have whole : i32 size = size := by unfold i32; omega
  have sum : u32 (u32 size + block) = size + block := by unfold u32; omega
  have blocks : (size + block) / block = size / block + 1 := Nat.add_div_right size pos
  unfold entry_disk_space
  rw [whole]
  simp only [sum, blocks, ← rounded]
  unfold i32
  omega

/-- What the entries of a table take on disk. -/
def Cache.space (s : Cache) : Nat := (s.residents.map fun p => roundUp s.block_size (s.heap p).size).sum

def Cache.urls (s : Cache) : List Text := s.residents.map fun p => (s.heap p).url

/-- The sizes, with what they may come to. Where it is asked for, no URL has two entries. -/
structure Sized (unique : Bool) (block most limit : Nat) (s : Cache) : Prop where
  blocks : s.block_size = block
  atMost : s.max_entry_size = most
  positive : 0 < block
  space : s.current_size = s.space
  small : s.current_size ≤ limit
  counted : ∀ p ∈ s.residents, Counted block (s.heap p).size
  placed : ∀ slot p, some p ∈ s.cache_table slot → slot = get_hash (s.heap p).url
  born : ∀ slot p, some p ∈ s.cache_table slot → p < s.next
  urls : unique = true → s.urls.Nodup

section

variable {unique : Bool} {block most limit : Nat} {s s' : Cache} {p : Pointer} {slot : Nat}

theorem Sized.resident (sized : Sized unique block most limit s) (mem : some p ∈ s.cache_table slot) : p ∈ s.residents := by
  have inside : slot < CACHE_TABLE_SIZE := by
    rw [sized.placed slot p mem]
    exact get_hash_lt _
  exact mem_residentsOf.mpr ⟨slot, inside, mem⟩

theorem mem_residents : p ∈ s.residents ↔ ∃ slot < CACHE_TABLE_SIZE, some p ∈ s.cache_table slot := mem_residentsOf

theorem residents_congr (table : s'.cache_table = s.cache_table) : s'.residents = s.residents := by
  unfold Cache.residents
  rw [table]

/-- What has no part in the sizes. -/
structure SameSizes (s s' : Cache) : Prop where
  table : s'.cache_table = s.cache_table
  heap : ∀ p ∈ s.residents, (s'.heap p).url = (s.heap p).url ∧ (s'.heap p).size = (s.heap p).size
  next : s.next ≤ s'.next
  size : s'.current_size = s.current_size
  block : s'.block_size = s.block_size
  most : s'.max_entry_size = s.max_entry_size

theorem SameSizes.refl (s : Cache) : SameSizes s s := ⟨rfl, fun _ _ => ⟨rfl, rfl⟩, Nat.le_refl _, rfl, rfl, rfl⟩

theorem SameSizes.trans {s'' : Cache} (first : SameSizes s s') (second : SameSizes s' s'') : SameSizes s s'' := by
  have residents : s'.residents = s.residents := residents_congr first.table
  refine ⟨second.table.trans first.table, fun p mem => ?_, Nat.le_trans first.next second.next,
    second.size.trans first.size, second.block.trans first.block, second.most.trans first.most⟩
  obtain ⟨url, size⟩ := first.heap p mem
  rw [← residents] at mem
  obtain ⟨url', size'⟩ := second.heap p mem
  exact ⟨url'.trans url, size'.trans size⟩

theorem Sized.of_same (sized : Sized unique block most limit s) (same : SameSizes s s') : Sized unique block most limit s' := by
  have residents : s'.residents = s.residents := residents_congr same.table
  have urls : s'.urls = s.urls := by
    unfold Cache.urls
    rw [residents]
    exact List.map_congr_left fun p mem => (same.heap p mem).1
  have space : s'.space = s.space := by
    unfold Cache.space
    rw [residents, same.block]
    exact congrArg List.sum (List.map_congr_left fun p mem => by rw [(same.heap p mem).2])
  constructor
  · exact same.block.trans sized.blocks
  · exact same.most.trans sized.atMost
  · exact sized.positive
  · rw [same.size, space, sized.space]
  · exact same.size ▸ sized.small
  · intro p mem
    rw [residents] at mem
    rw [(same.heap p mem).2]
    exact sized.counted p mem
  · intro slot p mem
    rw [same.table] at mem
    rw [(same.heap p (sized.resident mem)).1]
    exact sized.placed slot p mem
  · intro slot p mem
    rw [same.table] at mem
    exact Nat.lt_of_lt_of_le (sized.born slot p mem) same.next
  · intro is
    rw [urls]
    exact sized.urls is

def Cache.resized (s : Cache) (size : Nat) : Cache := { s with current_size := size }

/-- The size without an entry. -/
def Cache.freed (s : Cache) (p : Pointer) : Nat :=
  if s.current_size < u32 (entry_disk_space (i32 (s.heap p).size) s.block_size) then 0
  else s.current_size - u32 (entry_disk_space (i32 (s.heap p).size) s.block_size)

/-- Some entries may go when the size goes with them. -/
theorem Sized.of_fewer (sized : Sized unique block most limit s) (heap : s'.heap = s.heap) (next : s'.next = s.next)
    (same : s'.block_size = s.block_size)
    (same' : s'.max_entry_size = s.max_entry_size) (cells : ∀ slot p, some p ∈ s'.cache_table slot → some p ∈ s.cache_table slot)
    (space : s'.current_size = s'.space) (less : s'.current_size ≤ s.current_size) (urls : s'.urls.Sublist s.urls ∨
      ∃ url, s.urls.Perm (url :: s'.urls)) : Sized unique block most limit s' := by
  constructor
  · exact same.trans sized.blocks
  · exact same'.trans sized.atMost
  · exact sized.positive
  · exact space
  · exact Nat.le_trans less sized.small
  · intro p mem
    obtain ⟨slot, inside, here⟩ := mem_residents.mp mem
    rw [heap]
    exact sized.counted p (sized.resident (cells slot p here))
  · intro slot p mem
    rw [heap]
    exact sized.placed slot p (cells slot p mem)
  · intro slot p mem
    rw [next]
    exact sized.born slot p (cells slot p mem)
  · intro is
    rcases urls with sub | ⟨url, perm⟩
    · exact (sized.urls is).sublist sub
    · exact (List.nodup_cons.mp (perm.nodup_iff.mp (sized.urls is))).2

/-- The table without the entry of a cell. -/
def Cache.tableWithout (s : Cache) (slot i : Nat) : Nat → List (Option Pointer) :=
  Function.update s.cache_table slot ((s.cache_table slot).set i none)

theorem Sized.without {i size : Nat} (sized : Sized unique block most limit s) (inside : slot < CACHE_TABLE_SIZE)
    (here : (s.cache_table slot)[i]? = some (some p)) (less : size ≤ s.current_size)
    (rest : size = ((residentsOf (s.tableWithout slot i)).map fun p => roundUp s.block_size (s.heap p).size).sum) :
    Sized unique block most limit ((s.resized size).nulled slot i) := by
  have perm : s.residents.Perm (p :: residentsOf (s.tableWithout slot i)) := residentsOf_null inside here
  refine sized.of_fewer rfl rfl rfl rfl ?_ rest less (.inr ⟨(s.heap p).url, perm.map fun p => (s.heap p).url⟩)
  intro slot' p' mem
  exact mem_nulled mem

/-- An entry that is taken out takes its blocks along. -/
theorem Sized.removed {i : Nat} (sized : Sized unique block most limit s) (inside : slot < CACHE_TABLE_SIZE)
    (here : (s.cache_table slot)[i]? = some (some p)) : Sized unique block most limit ((s.resized (s.freed p)).nulled slot i) := by
  have mem := List.mem_of_getElem? here
  have counted : Counted s.block_size (s.heap p).size := sized.blocks ▸ sized.counted p (sized.resident mem)
  have positive : 0 < s.block_size := sized.blocks ▸ sized.positive
  have perm : s.residents.Perm (p :: residentsOf (s.tableWithout slot i)) := residentsOf_null inside here
  have blocks : u32 (entry_disk_space (i32 (s.heap p).size) s.block_size) = roundUp s.block_size (s.heap p).size := by
    rw [entry_disk_space_eq positive counted]
    have small := counted.2
    unfold u32
    omega
  have total := (perm.map fun p => roundUp s.block_size (s.heap p).size).sum_eq
  rw [List.map_cons, List.sum_cons] at total
  have space : s.current_size = _ := sized.space.trans total
  have freed : s.freed p = ((residentsOf (s.tableWithout slot i)).map fun p => roundUp s.block_size (s.heap p).size).sum := by
    unfold Cache.freed
    rw [blocks, space, if_neg (by omega), Nat.add_sub_cancel_left]
  exact sized.without inside here (by omega) freed

theorem Sized.erased (sized : Sized unique block most limit s) (slot : Nat) : Sized unique block most limit (s.erased slot) := by
  have residents : (s.erased slot).residents = s.residents := residentsOf_erase s.cache_table slot
  have urls : (s.erased slot).urls = s.urls := congrArg (List.map fun p => (s.heap p).url) residents
  have space : (s.erased slot).space = s.space :=
    congrArg (fun ps : List Pointer => (ps.map fun p => roundUp s.block_size (s.heap p).size).sum) residents
  refine sized.of_fewer rfl rfl rfl rfl (fun slot' p mem => mem_erased mem) ?_ (Nat.le_refl _) (.inl ?_)
  · exact sized.space.trans space.symm
  · rw [urls]

/-- An entry that is added brings its blocks along. -/
theorem Sized.added (sized : Sized unique block most limit s) (born : p < s.next) (hash : (s.heap p).hash = get_hash (s.heap p).url)
    (counted : Counted block (s.heap p).size) (room : limit + roundUp block (s.heap p).size < 2 ^ 64)
    (new : unique = true → (s.heap p).url ∉ s.urls) :
    Sized unique block most (limit + roundUp block (s.heap p).size) (s.added p) := by
  have slot : (s.heap p).hash.toNat = get_hash (s.heap p).url := by rw [hash]; rfl
  have inside : (s.heap p).hash.toNat < CACHE_TABLE_SIZE := by
    rw [slot]
    exact get_hash_lt _
  have perm : (s.added p).residents.Perm (p :: s.residents) := residentsOf_push inside
  have small := sized.small
  have size : (s.added p).current_size = s.current_size + roundUp block (s.heap p).size := by
    simp only [Cache.added, sized.blocks, entry_disk_space_eq sized.positive counted, Dap4.u64]
    omega
  have cells : ∀ slot' p', some p' ∈ (s.added p).cache_table slot' →
      some p' ∈ s.cache_table slot' ∨ (slot' = get_hash (s.heap p).url ∧ p' = p) := by
    intro slot' p' mem
    change some p' ∈ Function.update s.cache_table (s.heap p).hash.toNat _ slot' at mem
    by_cases same : slot' = (s.heap p).hash.toNat
    · subst same
      rw [Function.update_self, List.mem_append] at mem
      rcases mem with old | last
      · exact .inl old
      · exact .inr ⟨slot, Option.some.inj (List.mem_singleton.mp last)⟩
    · rw [Function.update_of_ne same] at mem
      exact .inl mem
  constructor
  · exact sized.blocks
  · exact sized.atMost
  · exact sized.positive
  · have total := (perm.map fun p => roundUp s.block_size (s.heap p).size).sum_eq
    rw [List.map_cons, List.sum_cons, sized.blocks] at total
    rw [size, sized.space, Cache.space, sized.blocks, Nat.add_comm]
    exact total.symm.trans (by rw [← sized.blocks]; rfl)
  · rw [size]
    omega
  · intro p' mem
    rcases List.mem_cons.mp (perm.mem_iff.mp mem) with rfl | old
    · exact counted
    · exact sized.counted p' old
  · intro slot' p' mem
    rcases cells slot' p' mem with old | ⟨rfl, rfl⟩
    · exact sized.placed slot' p' old
    · rfl
  · intro slot' p' mem
    rcases cells slot' p' mem with old | ⟨rfl, rfl⟩
    · exact sized.born slot' p' old
    · exact born
  · intro is
    have all := (perm.map fun p => (s.heap p).url).nodup_iff
    exact all.mpr (List.nodup_cons.mpr ⟨new is, sized.urls is⟩)

end

/-! ## Pieces that have no part in the sizes -/

/-- The locks are taken however they come. -/
abbrev Anyhow : Mutex → Cache → Prop := fun _ _ => True

section

variable {unique : Bool} {block most limit : Nat} {s₀ : Cache}

theorem keeps_of_same {α : Type} {p : Act α} (same : ∀ s₀, Keeps Anyhow (SameSizes s₀) p) :
    Keeps Anyhow (Sized unique block most limit) p :=
  ⟨fun s sized => ((same s).ends s (.refl s)).mono fun _ _ same => sized.of_same same⟩

theorem same_setLocked (s : Cache) (m : Mutex) (taken : Bool) : SameSizes s (setLocked s m taken) :=
  ⟨rfl, fun _ _ => ⟨rfl, rfl⟩, Nat.le_refl _, rfl, rfl, rfl⟩

theorem keeps_lock (m : Mutex) : Keeps Anyhow (SameSizes s₀) (LOCK m : Act Unit) :=
  keeps_LOCK (fun _ _ => trivial) fun s same => same.trans (same_setLocked s m true)

theorem keeps_unlock (m : Mutex) : Keeps Anyhow (SameSizes s₀) (UNLOCK m : Act Unit) :=
  keeps_write fun s same => same.trans (same_setLocked s m false)

theorem keeps_trylock (m : Mutex) : Keeps Anyhow (SameSizes s₀) (TRYLOCK m : Act Bool) :=
  keeps_TRYLOCK fun s same => same.trans (same_setLocked s m true)

theorem same_modified (s : Cache) (e : Pointer) {f : CacheEntry → CacheEntry} (url : (f (s.heap e)).url = (s.heap e).url)
    (size : (f (s.heap e)).size = (s.heap e).size) : SameSizes s { s with heap := Function.update s.heap e (f (s.heap e)) } := by
  refine ⟨rfl, fun p _ => ?_, Nat.le_refl _, rfl, rfl, rfl⟩
  change (Function.update s.heap e (f (s.heap e)) p).url = _ ∧ (Function.update s.heap e (f (s.heap e)) p).size = _
  by_cases here : p = e
  · subst here
    rw [Function.update_self]
    exact ⟨url, size⟩
  · rw [Function.update_of_ne here]
    exact ⟨rfl, rfl⟩

theorem keeps_modify (e : Pointer) {f : CacheEntry → CacheEntry} (url : ∀ entry, (f entry).url = entry.url)
    (size : ∀ entry, (f entry).size = entry.size) : Keeps Anyhow (SameSizes s₀) (modifyEntry e f) :=
  keeps_write fun s same => same.trans (same_modified s e (url _) (size _))

theorem keeps_lock_read (e : Pointer) : Keeps Anyhow (SameSizes s₀) (lock_read_response e) := by
  apply keeps_bind (keeps_trylock _)
  intro taken
  refine keeps_bind ?_ fun _ => keeps_modify e (fun _ => rfl) fun _ => rfl
  exact keeps_ite (keeps_pure ()) (keeps_bind (keeps_lock _) fun _ => keeps_unlock _)

theorem keeps_unlock_read (e : Pointer) : Keeps Anyhow (SameSizes s₀) (unlock_read_response e) := by
  apply keeps_bind
  · exact keeps_modify e (fun _ => rfl) fun _ => rfl
  · intro _
    apply keeps_bind (keeps_read _)
    exact fun _ => keeps_ite (keeps_unlock _) (keeps_pure ())

theorem keeps_lock_write (e : Pointer) : Keeps Anyhow (SameSizes s₀) (lock_write_response e) :=
  keeps_bind (keeps_lock _) fun _ => keeps_lock _

theorem keeps_unlock_write (e : Pointer) : Keeps Anyhow (SameSizes s₀) (unlock_write_response e) :=
  keeps_bind (keeps_unlock _) fun _ => keeps_unlock _

theorem keeps_write_metadata (io : Io) (headers : List Text) : Keeps Anyhow (SameSizes s₀) (write_metadata io headers) := by
  apply keeps_ite (keeps_throw _)
  apply keeps_forM
  exact fun header _ => keeps_ite (keeps_throw _) (keeps_pure ())

theorem keeps_read_metadata (io : Io) : Keeps Anyhow (SameSizes s₀) (read_metadata io) := by
  unfold read_metadata
  split
  · exact keeps_throw _
  · exact keeps_pure _

theorem keeps_index_write (file : IndexFile) : Keeps Anyhow (SameSizes s₀) (cache_index_write file) := by
  have rewritten (s : Cache) (index : Option Text) (n : Nat) : SameSizes s { s with index := index, new_entries := n } :=
    ⟨rfl, fun _ _ => ⟨rfl, rfl⟩, Nat.le_refl _, rfl, rfl, rfl⟩
  cases file with
  | written => exact keeps_write fun s same => same.trans (rewritten s _ _)
  | cannotOpen => exact keeps_bind (keeps_read _) fun _ => keeps_throw _
  | broken left =>
      exact keeps_bind (keeps_write fun s same => same.trans (rewritten s _ s.new_entries)) fun _ => keeps_throw _

theorem same_rebound (s : Cache) (bound : List (File × Option Pointer)) : SameSizes s { s with locked_entries := bound } :=
  ⟨rfl, fun _ _ => ⟨rfl, rfl⟩, Nat.le_refl _, rfl, rfl, rfl⟩

theorem keeps_get (io : Io) (url : Text) : Keeps Anyhow (SameSizes s₀) (get_cached_response io url) := by
  unfold get_cached_response get_locked_entry_from_cache_table handOut open_body bind_entry_to_data
  apply keeps_bind (keeps_lock _)
  intro _
  apply keeps_bind
  · apply keeps_bind (keeps_read _)
    intro found
    cases found with
    | none => exact keeps_pure _
    | some e => exact keeps_bind (keeps_lock_read e) fun _ => keeps_pure _
  · intro found
    cases found with
    | none => exact keeps_bind (keeps_unlock _) fun _ => keeps_pure _
    | some e =>
        refine keeps_bind (keeps_onThrow ?_ (keeps_unlock _)) fun _ => keeps_bind (keeps_unlock _) fun _ => keeps_pure _
        apply keeps_bind (keeps_read_metadata io)
        intro _
        apply keeps_bind
        · cases io.openBody with
          | none => exact keeps_throw _
          | some src => exact keeps_pure _
        · intro body
          refine keeps_bind ?_ fun _ => keeps_pure _
          apply keeps_bind
          · exact keeps_modify e (fun _ => rfl) fun _ => rfl
          · exact fun _ => keeps_write fun s same => same.trans (same_rebound s _)

theorem keeps_release (body : File) : Keeps Anyhow (SameSizes s₀) (release_cached_response body) := by
  unfold release_cached_response uncouple_entry_from_data
  apply keeps_bind (keeps_lock _)
  intro _
  refine keeps_bind (keeps_onThrow ?_ (keeps_unlock _)) fun _ => keeps_unlock _
  apply keeps_bind (keeps_read _)
  intro found
  cases found with
  | none => exact keeps_bind (keeps_write fun s same => same.trans (same_rebound s _)) fun _ => keeps_throw _
  | some e =>
      apply keeps_bind (keeps_write fun s same => same.trans (same_rebound s _))
      intro _
      apply keeps_bind (keeps_unlock_read e)
      intro _
      apply keeps_bind (keeps_read _)
      exact fun _ => keeps_ite (keeps_throw _) (keeps_pure _)

theorem keeps_update (io : Io) (url : Text) (request_time : Int) (headers : List Text) :
    Keeps Anyhow (SameSizes s₀) (update_response io url request_time headers) := by
  unfold update_response get_write_locked_entry_from_cache_table updateEntry
  apply keeps_bind (keeps_lock _)
  intro _
  apply keeps_bind
  · apply keeps_bind (keeps_read _)
    intro found
    cases found with
    | none => exact keeps_pure _
    | some e => exact keeps_bind (keeps_lock_write e) fun _ => keeps_pure _
  · intro found
    cases found with
    | none => exact keeps_bind (keeps_unlock _) fun _ => keeps_throw _
    | some e =>
        refine keeps_onThrow ?_ (keeps_bind (keeps_unlock_read e) fun _ => keeps_unlock _)
        apply keeps_bind (keeps_read _)
        intro most
        apply keeps_bind (keeps_read _)
        intro default_expiration
        apply keeps_bind
        · exact keeps_modify e (fun entry => (parse_headers_storage _ entry _ _).url) fun entry => (parse_headers_storage _ entry _ _).size
        · intro _
          apply keeps_bind
          · exact keeps_modify e (fun _ => rfl) fun _ => rfl
          · intro _
            apply keeps_bind (keeps_read_metadata io)
            intro old
            apply keeps_bind (keeps_write_metadata io _)
            intro _
            exact keeps_bind (keeps_unlock_write e) fun _ => keeps_unlock _

end

/-! ## Taking entries out -/

section

variable {unique : Bool} {block most limit : Nat} {s : Cache} {slot : Nat}

theorem SameSizes.nulled {s' : Cache} (same : SameSizes s s') (slot i : Nat) : SameSizes (s.nulled slot i) (s'.nulled slot i) := by
  refine ⟨?_, fun p mem => ?_, same.next, same.size, same.block, same.most⟩
  · simp only [Cache.nulled, same.table]
  · obtain ⟨other, inside, here⟩ := mem_residents.mp mem
    exact same.heap p (mem_residents.mpr ⟨other, inside, mem_nulled here⟩)

theorem SameSizes.resized {s' : Cache} (same : SameSizes s s') (size : Nat) : SameSizes (s.resized size) (s'.resized size) :=
  ⟨same.table, same.heap, same.next, rfl, same.block, same.most⟩

theorem SameSizes.freed {s' : Cache} (same : SameSizes s s') {e : Pointer} (mem : e ∈ s.residents) : s'.freed e = s.freed e := by
  unfold Cache.freed
  rw [same.size, same.block, (same.heap e mem).2]

/-- What a functor that takes entries out does to the sizes. -/
def Takes (functor : Pointer → Act Bool) : Prop :=
  ∀ e s, e ∈ s.residents → ((functor e).run s).Ends Anyhow fun r s' =>
    match r with
    | .ok true => SameSizes (s.resized (s.freed e)) s'
    | _ => SameSizes s s'

theorem visits_of_takes {functor : Pointer → Act Bool} (takes : Takes functor) (inside : slot < CACHE_TABLE_SIZE) :
    Visits Anyhow (Sized unique block most limit) functor slot := by
  intro i e s sized here
  apply (takes e s (sized.resident (List.mem_of_getElem? here))).mono
  intro r s' after
  cases r with
  | error _ => exact sized.of_same after
  | ok deleted =>
      cases deleted with
      | false => exact sized.of_same after
      | true => exact (sized.removed inside here).of_same (SameSizes.nulled after slot i)

theorem keeps_taking {functor : Pointer → Act Bool} (takes : Takes functor) : Keeps Anyhow (Sized unique block most limit) (forSlots functor) :=
  keeps_forSlots (fun _ inside => visits_of_takes takes inside) fun slot _ _ sized => sized.erased slot

theorem remove_takes (s : Cache) (e : Pointer) :
    ((s.heap e).readers = 0 ∧ (remove_cache_entry e).run s = .done () (s.resized (s.freed e))) ∨
      ∃ message, (remove_cache_entry e).run s = .threw message s := by
  by_cases unread : (s.heap e).readers = 0
  · exact .inl ⟨unread, remove_cache_entry_run unread⟩
  · refine .inr ⟨"Tried to delete a cache entry that is in use.", ?_⟩
    unfold remove_cache_entry
    change (if (s.heap e).readers ≠ 0 then (throw "Tried to delete a cache entry that is in use." : Act Unit)
      else write _).run s = _
    rw [if_pos unread]
    rfl

theorem takes_deleteUnread (condition : CacheEntry → Bool) : Takes (deleteUnread condition) := by
  intro e s _
  unfold deleteUnread
  rw [ends_bind]
  change Progress.Ends Anyhow _ ((if (s.heap e).readers = 0 ∧ condition (s.heap e) then _ else _ : Act Bool).run s)
  split
  · rcases remove_takes s e with ⟨_, removed⟩ | ⟨message, threw⟩
    · rw [ends_done removed]
      exact .refl _
    · rw [ends_bind, threw]
      exact .refl _
  · exact .refl _

theorem takes_deleteUnlocked : Takes DeleteUnlockedCacheEntry := by
  intro e s _
  unfold DeleteUnlockedCacheEntry
  rcases remove_takes s e with ⟨_, removed⟩ | ⟨message, threw⟩
  · rw [ends_done removed]
    exact .refl _
  · rw [ends_bind, threw]
    exact .refl _

/-- The functor for a URL passes only other entries. -/
theorem deleteCacheEntry_ends {url : Text} {e : Pointer} (mem : e ∈ s.residents) :
    ((DeleteCacheEntry url e).run s).Ends Anyhow fun r s' =>
      match r with
      | .ok true => SameSizes (s.resized (s.freed e)) s'
      | .ok false => SameSizes s s' ∧ (s.heap e).url ≠ url
      | .error _ => SameSizes s s' := by
  unfold DeleteCacheEntry
  rw [ends_bind]
  change Progress.Ends Anyhow _ ((if (s.heap e).url = url then _ else _ : Act Bool).run s)
  split
  · have locks : Keeps Anyhow (SameSizes s) (lock_write_response e) := keeps_lock_write e
    refine ends_seq (fun _ s' => SameSizes s s') ((locks.ends s (.refl s)).mono fun r s' same => ?_) fun _ s₁ same => ?_
    · cases r with
      | ok _ => exact same
      | error _ => exact same
    · rcases remove_takes s₁ e with ⟨_, removed⟩ | ⟨message, threw⟩
      · rw [ends_done removed]
        have freed := same.resized (s.freed e)
        rw [← same.freed mem] at freed ⊢
        exact freed.trans ((same_setLocked _ _ _).trans (same_setLocked _ _ _))
      · rw [ends_bind, threw]
        exact same
  · rename_i other
    exact ⟨.refl s, other⟩

end

end Libdap.Http
