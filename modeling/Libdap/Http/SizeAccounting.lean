import Libdap.Http.DiskSpace
import Libdap.Http.IndexRoundTrip

/-! # The size of the cache

In every run of calls the size of the table is what its entries take on disk, and every entry is in the slot of
its URL, as long as no entry comes in whose size is counted wrong. Where entries come in with responses only,
no URL has two.
-/

namespace Libdap.Http

open Program Ints Dap4

section

variable {unique : Bool} {block most limit : Nat} {s s' : Cache} {url : Text} {slot : Nat}

/-! ## Removing the entries of a URL -/

/-- The first cells of a slot have no entry for the URL. -/
def Cache.Cleared (s : Cache) (slot : Nat) (url : Text) (n : Nat) : Prop :=
  ∀ i < n, ∀ p, (s.cache_table slot)[i]? = some (some p) → (s.heap p).url ≠ url

theorem Sized.cell (sized : Sized unique block most limit s) {i : Nat} {p : Pointer}
    (here : (s.cache_table slot)[i]? = some (some p)) : p ∈ s.residents :=
  sized.resident (List.mem_of_getElem? here)

theorem Cache.Cleared.next {k : Nat} (cleared : s.Cleared slot url k)
    (other : ∀ p, (s.cache_table slot)[k]? = some (some p) → (s.heap p).url ≠ url) : s.Cleared slot url (k + 1) := by
  intro i less p here
  by_cases last : i = k
  · subst last
    exact other p here
  · exact cleared i (by omega) p here

theorem Cache.Cleared.of_same {k : Nat} (cleared : s.Cleared slot url k) (sized : Sized unique block most limit s)
    (same : SameSizes s s') : s'.Cleared slot url k := by
  intro i less p here
  rw [same.table] at here
  rw [(same.heap p (sized.cell here)).1]
  exact cleared i less p here

theorem Cache.Cleared.nulled {k : Nat} (cleared : s.Cleared slot url k) : (s.nulled slot k).Cleared slot url (k + 1) := by
  intro i less p here
  change (Function.update s.cache_table slot ((s.cache_table slot).set k none) slot)[i]? = some (some p) at here
  rw [Function.update_self] at here
  by_cases last : i = k
  · subst last
    obtain ⟨_, -, none_⟩ := Option.map_eq_some_iff.mp (List.getElem?_set_self'.symm.trans here)
    cases none_
  · rw [List.getElem?_set_ne (Ne.symm last)] at here
    exact cleared i (by omega) p here

/-- What a round leaves: the cells up to it are cleared, and there are as many as there were. -/
structure Clearing (unique : Bool) (block most limit slot : Nat) (url : Text) (n k : Nat) (s : Cache) : Prop where
  sized : Sized unique block most limit s
  length : (s.cache_table slot).length = n
  cleared : s.Cleared slot url k

theorem Clearing.round {n k : Nat} (inside : slot < CACHE_TABLE_SIZE)
    (clearing : Clearing unique block most limit slot url n k s) :
    ((forEntry (DeleteCacheEntry url) slot k).run s).Ends Anyhow fun r s' =>
      match r with
      | .ok _ => Clearing unique block most limit slot url n (k + 1) s'
      | .error _ => Sized unique block most limit s' := by
  obtain ⟨sized, length, cleared⟩ := clearing
  rw [forEntry]
  apply ends_read
  intro cell here
  cases cell with
  | none =>
      refine ⟨sized, length, cleared.next fun p there => ?_⟩
      cases here.symm.trans there
  | some entry =>
      cases entry with
      | none =>
          refine ⟨sized, length, cleared.next fun p there => ?_⟩
          cases here.symm.trans there
      | some e =>
          have mem := sized.cell here
          refine ends_seq (fun deleted s' => (deleted = true → SameSizes (s.resized (s.freed e)) s') ∧
            (deleted = false → SameSizes s s' ∧ (s.heap e).url ≠ url)) ((deleteCacheEntry_ends mem).mono fun r s' after => ?_)
            fun deleted s' after => ?_
          · cases r with
            | error _ =>
                have same : SameSizes s s' := after
                exact sized.of_same same
            | ok deleted =>
                cases deleted with
                | true => exact ⟨fun _ => after, Bool.noConfusion⟩
                | false => exact ⟨Bool.noConfusion, fun _ => after⟩
          · cases deleted with
            | true =>
                have after := after.1 rfl
                change Clearing unique block most limit slot url n (k + 1) (s'.nulled slot k)
                have gone : Sized unique block most limit (s'.nulled slot k) :=
                  (sized.removed inside here).of_same (SameSizes.nulled after slot k)
                have kept : s'.Cleared slot url k := by
                  intro i less p there
                  rw [after.table] at there
                  have stays := after.heap p (mem_residents.mpr ⟨slot, inside, List.mem_of_getElem? there⟩)
                  rw [stays.1]
                  exact cleared i less p there
                refine ⟨gone, ?_, kept.nulled⟩
                change (Function.update s'.cache_table slot ((s'.cache_table slot).set k none) slot).length = n
                rw [Function.update_self, List.length_set, after.table]
                exact length
            | false =>
                obtain ⟨same, other⟩ := after.2 rfl
                change Clearing unique block most limit slot url n (k + 1) s'
                refine ⟨sized.of_same same, by rw [same.table]; exact length, ?_⟩
                refine Cache.Cleared.of_same (cleared.next fun p there => ?_) sized same
                cases here.symm.trans there
                exact other

/-- What is removed is gone. -/
theorem remove_entry_sized (sized : Sized unique block most limit s) (url : Text) :
    ((remove_entry_from_cache_table url).run s).Ends Anyhow fun r s' =>
      Sized unique block most limit s' ∧ (r = .ok () → url ∉ s'.urls) := by
  have inside := get_hash_lt url
  unfold remove_entry_from_cache_table forSlot
  apply ends_read
  intro n length
  refine ends_seq (fun _ s' => Clearing unique block most limit (get_hash url) url n n s') ?_ fun _ s' clearing => ?_
  · refine (ends_forM (fun rest s' => ∃ k, k ≤ n ∧ rest = List.range' k (n - k) ∧
        Clearing unique block most limit (get_hash url) url n k s')
      (fun _ s' => Sized unique block most limit s') ?_ ?_).mono ?_
    rotate_left 2
    · intro r s' after
      cases r with
      | error e => exact ⟨after, fun ok => by cases ok⟩
      | ok _ =>
          obtain ⟨k, most, done, clearing⟩ := after
          have all : n - k = 0 := by simpa using congrArg List.length done.symm
          have last : k = n := by omega
          exact last ▸ clearing
    · intro i rest s' ⟨k, least, items, clearing⟩
      have more : n - k = (n - (k + 1)) + 1 := by
        have some_ := congrArg List.length items
        rw [List.length_cons, List.length_range'] at some_
        omega
      rw [more, List.range'_succ] at items
      obtain ⟨rfl, rfl⟩ := List.cons.inj items
      apply (clearing.round inside).mono
      intro r s' after
      cases r with
      | error e => exact after
      | ok _ => exact ⟨i + 1, by omega, rfl, after⟩
    · exact ⟨0, Nat.zero_le n, by rw [Nat.sub_zero, List.range_eq_range'], sized, length, fun i less => absurd less (by omega)⟩
  · change Sized unique block most limit (s'.erased (get_hash url)) ∧ (_ → url ∉ (s'.erased (get_hash url)).urls)
    refine ⟨clearing.sized.erased _, fun _ there => ?_⟩
    obtain ⟨p, mem, named⟩ := List.mem_map.mp there
    have before : p ∈ s'.residents := 
      (congrArg (p ∈ ·) (residentsOf_erase s'.cache_table (get_hash url))).mp mem
    obtain ⟨slot, -, here⟩ := mem_residents.mp before
    have home := clearing.sized.placed slot p here
    change (s'.heap p).url = url at named
    rw [named] at home
    subst home
    obtain ⟨i, cell⟩ := List.mem_iff_getElem?.mp here
    obtain ⟨less, -⟩ := List.getElem?_eq_some_iff.mp cell
    exact clearing.cleared i (clearing.length ▸ less) p cell named

/-! ## Storing -/

theorem Sized.weaken {limit' : Nat} (sized : Sized unique block most limit s) (more : limit ≤ limit') :
    Sized unique block most limit' s :=
  ⟨sized.blocks, sized.atMost, sized.positive, sized.space, Nat.le_trans sized.small more, sized.counted, sized.placed,
    sized.born, sized.urls⟩

/-- An entry that is not yet in the table. -/
structure Pending (unique : Bool) (block most limit : Nat) (url : Text) (e : Pointer) (s : Cache) : Prop where
  sized : Sized unique block most limit s
  born : e < s.next
  outside : e ∉ s.residents
  named : (s.heap e).url = url
  hash : (s.heap e).hash = get_hash url
  new : unique = true → url ∉ s.urls

theorem urls_of_same (same : SameSizes s s') : s'.urls = s.urls := by
  unfold Cache.urls
  rw [residents_congr same.table]
  exact List.map_congr_left fun p mem => (same.heap p mem).1

section

variable {e : Pointer}

theorem Pending.of_same (pending : Pending unique block most limit url e s) (same : SameSizes s s')
    (named : (s'.heap e).url = (s.heap e).url) (hash : (s'.heap e).hash = (s.heap e).hash) :
    Pending unique block most limit url e s' := by
  constructor
  · exact pending.sized.of_same same
  · exact Nat.lt_of_lt_of_le pending.born same.next
  · rw [residents_congr same.table]
    exact pending.outside
  · exact named.trans pending.named
  · exact hash.trans pending.hash
  · rw [urls_of_same same]
    exact pending.new

/-- Before it is in the table an entry may change its size. -/
theorem Pending.modified (pending : Pending unique block most limit url e s) {f : CacheEntry → CacheEntry}
    (named : (f (s.heap e)).url = (s.heap e).url) (hash : (f (s.heap e)).hash = (s.heap e).hash) :
    Pending unique block most limit url e { s with heap := Function.update s.heap e (f (s.heap e)) } := by
  have here : Function.update s.heap e (f (s.heap e)) e = f (s.heap e) := Function.update_self ..
  refine pending.of_same ⟨rfl, fun p mem => ?_, Nat.le_refl _, rfl, rfl, rfl⟩
    ((congrArg CacheEntry.url here).trans named) ((congrArg CacheEntry.hash here).trans hash)
  have other : p ≠ e := fun same => pending.outside (same ▸ mem)
  have stays : Function.update s.heap e (f (s.heap e)) p = s.heap p := Function.update_of_ne other ..
  exact ⟨congrArg CacheEntry.url stays, congrArg CacheEntry.size stays⟩

theorem modify_pending {α : Type} {post : Except String α → Cache → Prop} {f : CacheEntry → CacheEntry} {g : Unit → Act α}
    (pending : Pending unique block most limit url e s) (named : (f (s.heap e)).url = (s.heap e).url)
    (hash : (f (s.heap e)).hash = (s.heap e).hash)
    (rest : ∀ s', Pending unique block most limit url e s' → s'.heap e = f (s.heap e) → ((g ()).run s').Ends Anyhow post) :
    ((modifyEntry e f >>= g).run s).Ends Anyhow post :=
  rest _ (pending.modified named hash) (Function.update_self e (f (s.heap e)) s.heap)

/-- A new entry for a URL that has none. -/
theorem newEntry_pending (sized : Sized unique block most limit s) (entry : CacheEntry) (hash : entry.hash = get_hash entry.url)
    (new : unique = true → entry.url ∉ s.urls) : ((newEntry entry).run s).Ends Anyhow fun r s' =>
      ∃ p, r = .ok p ∧ s'.heap p = entry ∧ s'.urls = s.urls ∧ Pending unique block most limit entry.url p s' := by
  have absent : s.next ∉ s.residents := by
    intro mem
    obtain ⟨slot, -, here⟩ := mem_residents.mp mem
    exact Nat.lt_irrefl _ (sized.born slot s.next here)
  have here : Function.update s.heap s.next entry s.next = entry := Function.update_self ..
  have same (locked : Mutex → Bool) : SameSizes s { s with
      next := s.next + 1, heap := Function.update s.heap s.next entry, locked := locked } := by
    refine ⟨rfl, fun p mem => ?_, Nat.le_succ _, rfl, rfl, rfl⟩
    have other : p ≠ s.next := fun eq => absent (eq ▸ mem)
    have stays : Function.update s.heap s.next entry p = s.heap p := Function.update_of_ne other ..
    exact ⟨congrArg CacheEntry.url stays, congrArg CacheEntry.size stays⟩
  refine ⟨s.next, rfl, here, urls_of_same (same _), sized.of_same (same _), Nat.lt_succ_self _, absent, ?_, ?_, ?_⟩
  · exact congrArg CacheEntry.url here
  · exact (congrArg CacheEntry.hash here).trans hash
  · intro is mem
    exact new is ((congrArg (entry.url ∈ ·) (urls_of_same (same _))).mp mem)

/-- A pending entry comes into the table. -/
theorem add_pending (pending : Pending unique block most limit url e s) (counted : Counted block (s.heap e).size)
    (room : limit + roundUp block (s.heap e).size < 2 ^ 64) : (add_entry_to_cache_table e).run s = .done () (s.added e) ∧
      Sized unique block most (limit + roundUp block (s.heap e).size) (s.added e) ∧
      (s.added e).urls.Perm (url :: s.urls) := by
  have below := get_hash_lt url
  have hash : (s.heap e).hash = get_hash (s.heap e).url := by rw [pending.hash, pending.named]
  refine ⟨add_entry_run (by rw [pending.hash]; omega), ?_, ?_⟩
  · refine pending.sized.added pending.born hash counted room ?_
    rw [pending.named]
    exact pending.new
  · have inside : (s.heap e).hash.toNat < CACHE_TABLE_SIZE := by
      rw [pending.hash]
      omega
    have perm : (s.added e).residents.Perm (e :: s.residents) := residentsOf_push inside
    have named := perm.map fun p => (s.heap p).url
    rw [List.map_cons, pending.named] at named
    exact named

theorem pending_lock_write {entry : CacheEntry} :
    Keeps Anyhow (fun s => Pending unique block most limit url e s ∧ s.heap e = entry) (lock_write_response e) := by
  have taken (m : Mutex) : Keeps Anyhow (fun s => Pending unique block most limit url e s ∧ s.heap e = entry)
      (LOCK m : Act Unit) :=
    keeps_LOCK (fun _ _ => trivial) fun s is => ⟨is.1.of_same (same_setLocked s m true) rfl rfl, is.2⟩
  exact keeps_bind (taken _) fun _ => taken _

theorem writeHeader_ends (io : Io) (header : Text) (s : Cache) : ((writeHeader io header).run s).Ends Anyhow fun r s' =>
    s' = s ∧ (r = .ok () → header ≠ [] ∧ io.headerWrites header = true) := by
  unfold writeHeader
  split
  · exact ⟨rfl, fun ok => by cases ok⟩
  next fits =>
    obtain ⟨filled, writes⟩ := not_or.mp fits
    exact ⟨rfl, fun _ => ⟨filled, (Bool.not_eq_false _).mp writes⟩⟩

/-- Writing the metadata changes nothing, and where it succeeds all of it can be written. -/
theorem write_metadata_ends (io : Io) (headers : List Text) (s : Cache) :
    ((write_metadata io headers).run s).Ends Anyhow fun r s' => s' = s ∧ (r = .ok () → io.Writes headers) := by
  unfold write_metadata Io.Writes
  split
  · exact ⟨rfl, fun ok => by cases ok⟩
  next opens =>
    have opens := (Bool.not_eq_false _).mp opens
    generalize headers.filter (fun header => !is_hop_by_hop_header header) = kept
    induction kept with
    | nil => exact ⟨rfl, fun _ => ⟨opens, fun header mem => absurd mem List.not_mem_nil⟩⟩
    | cons header kept ih =>
        rw [List.forM_cons]
        refine ends_seq (fun _ s' => s' = s ∧ header ≠ [] ∧ io.headerWrites header = true)
          ((writeHeader_ends io header s).mono fun r s' after => ?_) fun _ s' after => ?_
        · cases r with
          | error _ => exact ⟨after.1, fun ok => by cases ok⟩
          | ok _ => exact ⟨after.1, after.2 rfl⟩
        · obtain ⟨rfl, one⟩ := after
          apply ih.mono
          intro r s'' after
          refine ⟨after.1, fun ok => ⟨opens, fun other mem => ?_⟩⟩
          cases mem with
          | head => exact one
          | tail _ mem => exact (after.2 ok).2 other mem

theorem create_location_pending (io : Io) (pending : Pending unique block most limit url e s) :
    ((create_location io e).run s).Ends Anyhow fun r s' => Pending unique block most limit url e s' ∧
      (r = .ok () → io.mkdir = none ∧ io.mkstemp.isSome) := by
  unfold create_location create_hash_directory
  apply ends_read
  intro entry _
  cases made : io.mkdir with
  | some error => exact ⟨pending, fun ok => by cases ok⟩
  | none =>
      cases named : io.mkstemp with
      | none => exact ⟨pending, fun ok => by cases ok⟩
      | some name => exact ⟨pending.modified (f := fun entry => { entry with cachename := name }) rfl rfl, fun _ => ⟨rfl, rfl⟩⟩

/-- What a response may add to the size: so much, if it is stored. -/
def Brings (io : Io) (headers : List Text) (block limit more : Nat) : Prop :=
  ∀ bytes, io.body = .written bytes → io.Stores headers →
    Counted block (u64 (i32 bytes)) ∧ roundUp block (u64 (i32 bytes)) ≤ more ∧ limit + more < 2 ^ 64

theorem fillEntry_sized {io : Io} {request_time : Int} {headers : List Text} {more : Nat}
    (pending : Pending unique block most limit url e s) (brings : Brings io headers block limit more) :
    ((fillEntry io e request_time headers).run s).Ends Anyhow fun _ s' =>
      Sized unique block most (limit + more) s' := by
  have less : limit ≤ limit + more := Nat.le_add_right limit more
  unfold fillEntry
  apply ends_read
  intro default_expiration _
  refine modify_pending pending rfl rfl fun s₁ pending _ => ?_
  refine ends_seq (fun _ s' => Pending unique block most limit url e s' ∧ io.mkdir = none ∧ io.mkstemp.isSome)
    ((create_location_pending io pending).mono fun r s' after => ?_) fun _ s₂ after => ?_
  · cases r with
    | error _ => exact after.1.sized.weaken less
    | ok _ => exact ⟨after.1, after.2 rfl⟩
  obtain ⟨pending, mkdir, mkstemp⟩ := after
  unfold write_body
  cases written : io.body with
  | cannotOpen => exact pending.sized.weaken less
  | ioError => exact pending.sized.weaken less
  | written bytes =>
      refine ends_seq (fun total s' => total = i32 bytes ∧ s' = s₂) ⟨rfl, rfl⟩ fun total s' same => ?_
      obtain ⟨total_, same⟩ := same
      subst same
      refine modify_pending pending rfl rfl fun s₃ pending is₃ => ?_
      have size : (s₃.heap e).size = u64 (i32 bytes) := by rw [is₃, total_]
      refine ends_seq (fun _ s' => s' = s₃ ∧ io.Writes headers) ((write_metadata_ends io headers s₃).mono fun r s' after => ?_)
        fun _ s₄ after => ?_
      · cases r with
        | error _ => exact after.1 ▸ pending.sized.weaken less
        | ok _ => exact ⟨after.1, after.2 rfl⟩
      obtain ⟨rfl, writes⟩ := after
      obtain ⟨counted, fits, room⟩ := brings bytes written ⟨mkdir, mkstemp, ⟨bytes, written⟩, writes⟩
      rw [← size] at counted fits
      obtain ⟨run, sized, -⟩ := add_pending pending counted (by omega)
      rw [ends_done run]
      have unlock : Keeps Anyhow (Sized unique block most (limit + more)) (unlock_write_response e) :=
        keeps_of_same fun _ => keeps_unlock_write e
      exact unlock.ends _ (sized.weaken (by omega))

end

/-! ## Collecting -/

theorem keeps_hits (rounds : Nat) (hits : Int) : Keeps Anyhow (Sized unique block most limit) (hitsLoop rounds hits) := by
  induction rounds generalizing hits with
  | zero => exact keeps_forever
  | succ rounds ih =>
      unfold hitsLoop
      apply keeps_bind (keeps_read _)
      intro stop
      apply keeps_ite (keeps_pure ())
      apply keeps_bind
      · exact keeps_taking (takes_deleteUnread _)
      · exact fun _ => ih (hits + 1)

theorem keeps_collect (io : Io) : Keeps Anyhow (Sized unique block most limit) (perform_garbage_collection io) := by
  unfold perform_garbage_collection
  apply keeps_bind
  · apply keeps_bind (keeps_read _)
    exact fun _ => keeps_ite (keeps_pure ()) (keeps_taking (takes_deleteUnread _))
  · intro _
    apply keeps_bind
    · apply keeps_bind (keeps_read _)
      intro _
      apply keeps_bind (keeps_read _)
      exact fun _ => keeps_ite (keeps_taking (takes_deleteUnread _)) (keeps_pure ())
    · intro _
      apply keeps_bind (keeps_read _)
      exact fun _ => keeps_ite (keeps_hits _ _) (keeps_pure ())

theorem keeps_dump_sized (io : Io) : Keeps Anyhow (Sized unique block most limit) (dump io) := by
  have wrote : Keeps Anyhow (Sized unique block most limit) (cache_index_write io.indexFile) :=
    keeps_of_same fun _ => keeps_index_write io.indexFile
  unfold dump
  apply keeps_bind (keeps_read _)
  intro many
  apply keeps_ite
  · apply keeps_bind (keeps_read _)
    intro start
    apply keeps_ite
    · exact keeps_bind (keeps_collect io) fun _ => wrote
    · exact keeps_bind (keeps_pure ()) fun _ => wrote
  · exact keeps_pure ()

theorem keeps_purge (io : Io) : Keeps Anyhow (Sized unique block most limit) (purge_cache io) := by
  have lock : Keeps Anyhow (Sized unique block most limit) lock_cache_interface := keeps_of_same fun _ => keeps_lock _
  have unlock : Keeps Anyhow (Sized unique block most limit) unlock_cache_interface := keeps_of_same fun _ => keeps_unlock _
  unfold purge_cache purge delete_all_entries
  refine keeps_bind lock fun _ => keeps_bind (keeps_onThrow ?_ unlock) fun _ => unlock
  apply keeps_bind (keeps_read _)
  intro _
  apply keeps_ite (keeps_throw _)
  apply keeps_bind (keeps_taking takes_deleteUnlocked)
  intro _
  exact keeps_write fun s sized => sized.of_same ⟨rfl, fun _ _ => ⟨rfl, rfl⟩, Nat.le_refl _, rfl, rfl, rfl⟩

theorem storeResponse_sized {io : Io} {request_time : Int} {headers : List Text} {more : Nat}
    (sized : Sized unique block most limit s)
    (brings : Storable io url headers most → Brings io headers block limit more) :
    ((storeResponse io url request_time headers).run s).Ends Anyhow fun _ s' =>
      Sized unique block most (limit + more) s' := by
  have less : limit ≤ limit + more := Nat.le_add_right limit more
  have unlock {limit : Nat} : Keeps Anyhow (Sized unique block most limit) unlock_cache_interface :=
    keeps_of_same fun _ => keeps_unlock _
  unfold storeResponse
  split
  · exact (keeps_bind unlock fun _ => keeps_pure false).ends s (sized.weaken less)
  next kind =>
    have known : contains url "http:" ∨ contains url "https:" := by
      simp only [Bool.and_eq_true, Bool.not_eq_true', not_and, Bool.not_eq_false] at kind
      by_cases plain : contains url "http:" = true
      · exact .inl plain
      · exact .inr (kind (Bool.eq_false_iff.mpr plain))
    refine ends_seq (fun _ s' => Sized unique block most limit s' ∧ url ∉ s'.urls)
      ((remove_entry_sized sized url).mono fun r s' after => ?_) fun _ s₁ after => ?_
    · cases r with
      | error _ => exact after.1.weaken less
      | ok _ => exact ⟨after.1, after.2 rfl⟩
    rw [ends_bind]
    apply (newEntry_pending after.1 (CacheEntry.ofUrl url) rfl fun _ => after.2).mono
    intro r s₂ made
    obtain ⟨e, rfl, is₂, -, pending⟩ := made
    have pending : Pending unique block most limit url e s₂ := pending
    refine ends_seq (fun _ s' => Pending unique block most limit url e s' ∧ s'.heap e = CacheEntry.ofUrl url)
      ((pending_lock_write.ends s₂ ⟨pending, is₂⟩).mono fun r s' after => ?_) fun _ s₃ after => ?_
    · cases r with
      | error _ => exact after.1.sized.weaken less
      | ok _ => exact after
    obtain ⟨pending, is₃⟩ := after
    apply ends_read
    intro max_entry_size same
    obtain rfl : max_entry_size = most := same.symm.trans pending.sized.atMost
    have stored := parse_headers_storage io.parse_time (s₃.heap e) max_entry_size headers
    refine modify_pending pending stored.url stored.hash fun s₄ pending is₄ => ?_
    rw [is₃] at is₄
    apply ends_read
    intro entry is
    have free : Keeps Anyhow (Sized unique block max_entry_size limit) (unlock_write_response e) :=
      keeps_of_same fun _ => keeps_unlock_write e
    split
    · have ended := (keeps_bind free fun _ => keeps_bind unlock fun _ => keeps_pure false).ends s₄ pending.sized
      exact ended.mono fun _ _ sized => sized.weaken less
    next kept =>
      have storable : Storable io url headers max_entry_size := by
        rw [← is, is₄] at kept
        exact ⟨known, Bool.eq_false_iff.mpr kept⟩
      refine ends_seq (fun _ s' => Sized unique block max_entry_size (limit + more) s')
        ((fillEntry_sized pending (brings storable)).mono fun r s' after => ?_) fun _ s₅ sized => ?_
      · cases r with
        | error _ => exact after
        | ok _ => exact after
      · exact (keeps_bind (keeps_dump_sized io) fun _ => keeps_pure true).ends s₅ sized

theorem cache_response_sized {io : Io} {request_time : Int} {headers : List Text} (more : Nat)
    (sized : Sized unique block most limit s)
    (brings : Storable io url headers most → Brings io headers block limit more) :
    ((cache_response io url request_time headers).run s).Ends Anyhow fun _ s' =>
      Sized unique block most (limit + more) s' := by
  have lock : Keeps Anyhow (Sized unique block most limit) lock_cache_interface := keeps_of_same fun _ => keeps_lock _
  have unlock : Keeps Anyhow (Sized unique block most (limit + more)) unlock_cache_interface :=
    keeps_of_same fun _ => keeps_unlock _
  unfold cache_response
  refine ends_seq (fun _ s' => Sized unique block most limit s') ((lock.ends s sized).mono fun r s' after => ?_)
    fun _ s₁ sized => ?_
  · cases r with
    | error _ => exact after.weaken (Nat.le_add_right limit more)
    | ok _ => exact after
  refine ends_seq (fun _ s' => Sized unique block most (limit + more) s') ?_ fun stored s₂ sized => ?_
  · apply (unlock.caught (storeResponse_sized sized brings)).mono
    intro r s' after
    cases r with
    | ok _ => exact after
    | error _ => exact after
  · have ended : Keeps Anyhow (Sized unique block most (limit + more)) (if stored then do
        unlock_cache_interface
        return true
      else return false : Act Bool) := keeps_ite (keeps_bind unlock fun _ => keeps_pure true) (keeps_pure false)
    exact ended.ends s₂ sized

/-! ## Reading an index -/

/-- Entries that may come into a table together. -/
structure Loadable (unique : Bool) (block : Nat) (es : List CacheEntry) : Prop where
  hash : ∀ e ∈ es, e.hash = get_hash e.url
  counted : ∀ e ∈ es, Counted block e.size
  urls : unique = true → (es.map CacheEntry.url).Nodup

/-- What entries take on disk. -/
def spaceOn (block : Nat) (es : List CacheEntry) : Nat := (es.map fun e => roundUp block e.size).sum

theorem add_new_sized {entry : CacheEntry} (sized : Sized unique block most limit s) (hash : entry.hash = get_hash entry.url)
    (counted : Counted block entry.size) (room : limit + roundUp block entry.size < 2 ^ 64)
    (new : unique = true → entry.url ∉ s.urls) :
    ((newEntry entry >>= add_entry_to_cache_table).run s).Ends Anyhow fun _ s' =>
      Sized unique block most (limit + roundUp block entry.size) s' ∧ s'.urls.Perm (entry.url :: s.urls) := by
  rw [ends_bind]
  apply (newEntry_pending sized entry hash new).mono
  intro r s' made
  obtain ⟨p, rfl, is, urls, pending⟩ := made
  rw [← is] at counted room
  obtain ⟨run, sized, perm⟩ := add_pending pending counted room
  change Progress.Ends Anyhow _ ((add_entry_to_cache_table p).run s')
  rw [is] at sized
  rw [urls] at perm
  rw [run]
  exact ⟨sized, perm⟩

theorem addAll_sized {es : List CacheEntry} (sized : Sized unique block most limit s) (loadable : Loadable unique block es)
    (apart : unique = true → ∀ e ∈ es, e.url ∉ s.urls) (room : limit + spaceOn block es < 2 ^ 64) :
    ((addAll es).run s).Ends Anyhow fun _ s' => Sized unique block most (limit + spaceOn block es) s' := by
  induction es generalizing s limit with
  | nil => exact sized
  | cons e es ih =>
      obtain ⟨hash, counted, urls⟩ := loadable
      have sum : spaceOn block (e :: es) = roundUp block e.size + spaceOn block es := List.sum_cons
      have all : limit + spaceOn block (e :: es) = limit + roundUp block e.size + spaceOn block es := by omega
      have rest : Loadable unique block es :=
        ⟨fun e' mem => hash e' (List.mem_cons_of_mem e mem), fun e' mem => counted e' (List.mem_cons_of_mem e mem),
          fun is => (List.nodup_cons.mp (urls is)).2⟩
      rw [all] at room ⊢
      have first := add_new_sized sized (hash e List.mem_cons_self) (counted e List.mem_cons_self) (by omega)
        fun is => apart is e List.mem_cons_self
      rw [addAll, List.forM_cons]
      refine ends_seq (fun _ s' => Sized unique block most (limit + roundUp block e.size) s' ∧ s'.urls.Perm (e.url :: s.urls))
        (first.mono fun r s' after => ?_) fun _ s' after => ?_
      · cases r with
        | error _ => exact after.1.weaken (Nat.le_add_right _ _)
        | ok _ => exact after
      · refine ih after.1 rest (fun is e' mem there => ?_) room
        cases List.mem_cons.mp (after.2.mem_iff.mp there) with
        | inl same => exact (List.nodup_cons.mp (urls is)).1 (same ▸ List.mem_map_of_mem mem)
        | inr old => exact apart is e' (List.mem_cons_of_mem e mem) old

/-- The entries that are read from an index. -/
def indexEntries (text : Text) : List CacheEntry := (fgetsLines [] text).map cache_index_parse_line

theorem cache_index_read_sized (sized : Sized unique block most 0 s) (none_ : s.urls = [])
    (loadable : ∀ text, s.index = some text →
      Loadable unique block (indexEntries text) ∧ spaceOn block (indexEntries text) < 2 ^ 64) :
    (cache_index_read.run s).Ends Anyhow fun _ s' => ∃ limit, Sized unique block most limit s' := by
  apply ends_read
  intro index is
  cases index with
  | none => exact ⟨0, sized⟩
  | some text =>
      obtain ⟨loadable, room⟩ := loadable text is
      have apart : unique = true → ∀ e ∈ indexEntries text, e.url ∉ s.urls := by
        intro _ e _
        rw [none_]
        exact List.not_mem_nil
      have added := addAll_sized sized loadable apart (by omega)
      rw [indexEntries, ← readIndexLines_eq] at added
      refine ends_seq (fun _ s' => ∃ limit, Sized unique block most limit s') (added.mono fun r s' after => ?_)
        fun _ s' after => ?_
      · cases r with
        | error _ => exact ⟨_, after⟩
        | ok _ => exact ⟨_, after⟩
      · obtain ⟨limit, sized⟩ := after
        exact ⟨limit, sized.of_same ⟨rfl, fun _ _ => ⟨rfl, rfl⟩, Nat.le_refl _, rfl, rfl, rfl⟩⟩

end

/-! ## Runs -/

/-- The calls of the table and of the cache. -/
inductive TableCall where
  | add_entry_to_cache_table (entry : CacheEntry)
  | remove_entry_from_cache_table (url : Text)
  | perform_garbage_collection
  | cache_index_write
  -- a table is made that reads the index
  | reopen
  | serve (call : Call)

def TableCall.act (io : Io) : TableCall → Act Unit
  | add_entry_to_cache_table entry => newEntry entry >>= Http.add_entry_to_cache_table
  | remove_entry_from_cache_table url => Http.remove_entry_from_cache_table url
  | perform_garbage_collection => Http.perform_garbage_collection io
  | cache_index_write => Http.cache_index_write io.indexFile
  | reopen => write Cache.emptied >>= fun _ => cache_index_read >>= fun _ => pure ()
  | serve call => call.act io >>= fun _ => pure ()

/-- A call that comes to an end. -/
inductive TableStep : Cache → Io × TableCall → Cache → Prop where
  | call {s s' : Cache} {io : Io} {call : TableCall} {r : Except String Unit}
      (result : ((call.act io).run s).alone = some (r, s')) : TableStep s (io, call) s'

/-- What comes in is counted right. Entries that are added by themselves may bring a URL a second time. -/
def Countable (unique : Bool) (s : Cache) : Io × TableCall → Prop
  | (_, .add_entry_to_cache_table entry) =>
      unique = false ∧ entry.hash = get_hash entry.url ∧ Counted s.block_size entry.size ∧
        s.current_size + roundUp s.block_size entry.size < 2 ^ 64
  | (_, .reopen) => ∀ text, s.index = some text →
      Loadable unique s.block_size (indexEntries text) ∧ spaceOn s.block_size (indexEntries text) < 2 ^ 64
  | (io, .serve (.cache_response url _ headers)) => Storable io url headers s.max_entry_size → io.Stores headers →
      ∀ bytes, io.body = .written bytes → Counted s.block_size (u64 (i32 bytes)) ∧
        s.current_size + roundUp s.block_size (u64 (i32 bytes)) < 2 ^ 64
  | _ => True

/-- The size is that of the entries in whole blocks, and every entry is in its slot. -/
structure Cache.SizeAccounted (s : Cache) : Prop where
  size : s.current_size = (s.residents.map fun p => roundUp s.block_size (s.heap p).size).sum
  placed : ∀ slot p, some p ∈ s.cache_table slot → slot = get_hash (s.heap p).url

/-- At most one entry for each URL. -/
def Cache.OnePerUrl (s : Cache) : Prop := (s.residents.map fun p => (s.heap p).url).Nodup

def Cache.InOrder (unique : Bool) (s : Cache) : Prop :=
  ∃ block most limit, Sized unique block most limit s

section

variable {unique : Bool} {block most limit : Nat} {s s' : Cache}

theorem emptied_sized (positive : 0 < s.block_size) : Sized unique s.block_size s.max_entry_size 0 s.emptied := by
  have none_ := emptied_residents s
  constructor
  · rfl
  · rfl
  · exact positive
  · unfold Cache.space
    rw [none_]
    rfl
  · exact Nat.le_refl 0
  · intro p mem
    rw [none_] at mem
    cases mem
  · exact fun slot p mem => absurd mem List.not_mem_nil
  · exact fun slot p mem => absurd mem List.not_mem_nil
  · intro _
    unfold Cache.urls
    rw [none_]
    exact List.nodup_nil

theorem ends_of_keeps {α : Type} {p : Act α} (sized : Sized unique block most limit s)
    (keeps : Keeps Anyhow (Sized unique block most limit) p) :
    (p.run s).Ends Anyhow fun _ s' => s'.InOrder unique :=
  (keeps.ends s sized).mono fun _ _ sized => ⟨_, _, _, sized⟩

theorem ends_giving {α β : Type} {p : Act α} (b : β) {Inv : Cache → Prop} (ends : (p.run s).Ends Anyhow fun _ s' => Inv s') :
    ((p >>= fun _ => pure b).run s).Ends Anyhow fun _ s' => Inv s' := by
  rw [ends_bind]
  apply ends.mono
  intro r s' after
  cases r with
  | ok _ => exact after
  | error _ => exact after

theorem Call.ends_inOrder {io : Io} {call : Call} (inOrder : s.InOrder unique) (countable : Countable unique s (io, .serve call)) :
    ((call.act io).run s).Ends Anyhow fun _ s' => s'.InOrder unique := by
  obtain ⟨block, most, limit, sized⟩ := inOrder
  cases call with
  | get_cached_response url => exact ends_of_keeps sized (keeps_of_same fun _ => keeps_get io url)
  | release_cached_response body => exact ends_giving none (ends_of_keeps sized (keeps_of_same fun _ => keeps_release body))
  | update_response url request_time headers =>
      exact ends_giving none (ends_of_keeps sized (keeps_of_same fun _ => keeps_update io url request_time headers))
  | purge_cache => exact ends_giving none (ends_of_keeps sized (keeps_purge io))
  | cache_response url request_time headers =>
      have exactly : Sized unique block most s.current_size s :=
        ⟨sized.blocks, sized.atMost, sized.positive, sized.space, Nat.le_refl _, sized.counted, sized.placed, sized.born,
          sized.urls⟩
      apply ends_giving none
      by_cases stored : Storable io url headers most ∧ io.Stores headers
      · obtain ⟨bytes, written⟩ := stored.2.body
        have atMost := sized.atMost
        subst atMost
        have blocks := sized.blocks
        subst blocks
        obtain ⟨counted, room⟩ := countable stored.1 stored.2 bytes written
        refine (cache_response_sized (roundUp s.block_size (u64 (i32 bytes))) exactly fun _ bytes' written' _ => ?_).mono
          fun _ _ sized => ⟨_, _, _, sized⟩
        cases written.symm.trans written'
        exact ⟨counted, Nat.le_refl _, room⟩
      · refine (cache_response_sized 0 exactly fun storable bytes _ stores => ?_).mono
          fun _ _ sized => ⟨_, _, _, sized⟩
        exact absurd ⟨storable, stores⟩ stored

theorem TableCall.ends_inOrder {io : Io} {call : TableCall} (inOrder : s.InOrder unique) (countable : Countable unique s (io, call)) :
    ((call.act io).run s).Ends Anyhow fun _ s' => s'.InOrder unique := by
  cases call with
  | serve call => exact ends_giving () (Call.ends_inOrder inOrder countable)
  | add_entry_to_cache_table entry =>
      obtain ⟨block, most, limit, sized⟩ := inOrder
      obtain ⟨alone, hash, counted, room⟩ := countable
      have exactly : Sized unique s.block_size most s.current_size s :=
        ⟨rfl, sized.atMost, sized.blocks ▸ sized.positive, sized.space, Nat.le_refl _, sized.blocks ▸ sized.counted,
          sized.placed, sized.born, sized.urls⟩
      have added := add_new_sized exactly hash counted room fun is => absurd (alone.symm.trans is) Bool.false_ne_true
      exact added.mono fun _ _ after => ⟨_, _, _, after.1⟩
  | remove_entry_from_cache_table url =>
      obtain ⟨block, most, limit, sized⟩ := inOrder
      exact (remove_entry_sized sized url).mono fun _ _ after => ⟨_, _, _, after.1⟩
  | perform_garbage_collection =>
      obtain ⟨block, most, limit, sized⟩ := inOrder
      exact ends_of_keeps sized (keeps_collect io)
  | cache_index_write =>
      obtain ⟨block, most, limit, sized⟩ := inOrder
      exact ends_of_keeps sized (keeps_of_same fun _ => keeps_index_write io.indexFile)
  | reopen =>
      obtain ⟨block, most, limit, sized⟩ := inOrder
      have start : Sized unique s.block_size s.max_entry_size 0 s.emptied := emptied_sized (sized.blocks ▸ sized.positive)
      have none_ : s.emptied.urls = [] := by
        unfold Cache.urls
        rw [emptied_residents]
        rfl
      have read := cache_index_read_sized start none_ countable
      exact ends_giving () (read.mono fun _ _ after => ⟨_, _, after⟩)

theorem Cache.InOrder.step {call : Io × TableCall} (inOrder : s.InOrder unique) (countable : Countable unique s call)
    (step : TableStep s call s') : s'.InOrder unique := by
  cases step with
  | call result => exact (TableCall.ends_inOrder inOrder countable).alone result

/-- In a run from an empty table in which nothing comes in that is counted wrong. -/
theorem sizes_accounted {c : Cache} (positive : 0 < c.block_size) {calls : List (Io × TableCall)}
    (run : Run (Under (Countable unique) TableStep) c.emptied calls s) :
    s.SizeAccounted ∧ (unique = true → s.OnePerUrl) := by
  have inOrder : s.InOrder unique :=
    run.keeps (fun before taken => before.step taken.1 taken.2) ⟨_, _, _, emptied_sized positive⟩
  obtain ⟨block, most, limit, sized⟩ := inOrder
  exact ⟨⟨sized.space, sized.placed⟩, sized.urls⟩

end

/-- A response is stored, the index is written, and another URL is removed. -/
theorem stored_size_accounted : ∃ s, Run (Under (Countable true) TableStep) Cache.unused.emptied
    [(Io.ready, .serve (.cache_response "http:a".toList 0 [])), (Io.ready, .cache_index_write),
      (Io.ready, .remove_entry_from_cache_table "http:b".toList)] s ∧ s.SizeAccounted ∧ (true = true → s.OnePerUrl) := by
  have stored : ∀ bytes, Io.ready.body = .written bytes →
      Counted 4096 (u64 (i32 bytes)) ∧ 0 + roundUp 4096 (u64 (i32 bytes)) < 2 ^ 64 := by
    intro bytes written
    cases written
    exact ⟨⟨by decide, by decide⟩, by decide⟩
  have run : ∃ s, Run (Under (Countable true) TableStep) Cache.unused.emptied
      [(Io.ready, .serve (.cache_response "http:a".toList 0 [])), (Io.ready, .cache_index_write),
        (Io.ready, .remove_entry_from_cache_table "http:b".toList)] s :=
    ⟨_, .cons ⟨fun _ _ => stored, .call rfl⟩ (.cons ⟨trivial, .call rfl⟩ (.cons ⟨trivial, .call rfl⟩ (.nil _)))⟩
  obtain ⟨s, run⟩ := run
  exact ⟨s, run, sizes_accounted (by decide) run⟩

/-- A response of exactly one block is counted as two. -/
theorem whole_block_counted_twice : ¬∀ (c s : Cache) (calls : List (Io × TableCall)), 0 < c.block_size →
    Run TableStep c.emptied calls s → s.SizeAccounted := by
  intro always
  have run : ∃ s, Run TableStep Cache.unused.emptied
      [({ Io.ready with body := .written 4096 }, .serve (.cache_response "http:a".toList 0 []))] s ∧ s.current_size = 8192 ∧
        (s.residents.map fun p => roundUp s.block_size (s.heap p).size).sum = 4096 := by
    refine ⟨_, .cons (.call rfl) (.nil _), ?_, ?_⟩
    · decide +kernel
    · decide +kernel
  obtain ⟨s, run, size, space⟩ := run
  have same := (always _ s _ (by decide) run).size
  rw [size, space] at same
  cases same

end Libdap.Http
