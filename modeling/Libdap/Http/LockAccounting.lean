import Libdap.Http.Books
import Libdap.Foundation.Run

/-! # Locks from call to call

Between two calls nobody has the interface, and an entry is locked, for reading, just as long as a response
for it has been handed out and not been released. This holds as long as no call fails while it has locked an
entry.
-/

namespace Libdap.Http

open Program Ints

def handedIn (bound : List (File × Option Pointer)) : List (File × Pointer) := bound.filterMap fun b => b.2.map (b.1, ·)

/-- The responses that are bound to open files. -/
def Cache.handedOut (s : Cache) : List (File × Pointer) := handedIn s.locked_entries

/-- How many of the responses are for an entry. -/
def readersIn (handed : List (File × Pointer)) (e : Pointer) : Nat := handed.countP (·.2 = e)

structure Quiet (s : Cache) : Prop where
  books : Books false none (readersIn s.handedOut) s.locked_entries s
  files : (s.locked_entries.map Prod.fst).Nodup

/-- A call takes the interface, and what it does then is told from the state in which it got it. -/
def Serves {α : Type} (strict : Bool) (call : Act α) (pre : Cache → Prop) (post : Cache → Except String α → Cache → Prop) :
    Prop :=
  ∃ body, call = (lock_cache_interface >>= fun _ => body) ∧
    ∀ s, pre s → (body.run (setLocked s Mutex.d_cache_mutex true)).Ends (Orderly strict) (post s)

section

variable {strict : Bool} {count : Pointer → Nat} {bound : List (File × Option Pointer)} {s : Cache} {e : Pointer}
  {stops : Mutex → Cache → Prop}

theorem Books.set_interface {writer : Option Pointer} {inside : Bool} (books : Books inside writer count bound s) (taken : Bool) :
    Books taken writer count bound (setLocked s Mutex.d_cache_mutex taken) where
  interface := Function.update_self (β := fun _ => Bool) Mutex.d_cache_mutex taken s.locked
  readers := books.readers
  reading := by simpa [setLocked] using books.reading
  writing := by simpa [setLocked] using books.writing
  resident := books.resident
  unborn := books.unborn
  written := books.written
  entries := books.entries

theorem findEntry_some {url : Text} (found : s.findEntry url = some e) :
    some e ∈ s.cache_table (get_hash url) ∧ (s.heap e).url = url := by
  obtain ⟨cell, mem, is⟩ := List.exists_of_findSome?_eq_some found
  obtain ⟨here, same⟩ := Option.filter_eq_some_iff.mp is
  exact ⟨here ▸ mem, of_decide_eq_true same⟩

theorem handedIn_filter (bound : List (File × Option Pointer)) (body : File) :
    handedIn (bound.filter fun b => b.1 ≠ body) = (handedIn bound).filter fun h => h.1 ≠ body := by
  rw [handedIn, handedIn, List.filterMap_filter, List.filter_filterMap]
  congr 1
  funext b
  cases entry : b.2 with
  | none => simp
  | some e => by_cases same : b.1 = body <;> simp [same, Option.filter]

theorem filter_of_fresh {handed : List (File × Pointer)} {body : File} (fresh : body ∉ handed.map Prod.fst) :
    (handed.filter fun h => h.1 ≠ body) = handed := by
  apply List.filter_eq_self.mpr
  intro h mem
  exact decide_eq_true fun same => fresh (same ▸ List.mem_map_of_mem mem)

theorem readersIn_cons (body : File) (e : Pointer) (handed : List (File × Pointer)) :
    readersIn ((body, e) :: handed) = Function.update (readersIn handed) e (readersIn handed e + 1) := by
  funext e'
  by_cases same : e' = e
  · subst same
    simp [readersIn]
  · simp [readersIn, same, Ne.symm same]

theorem nodup_files {bound : List (File × Option Pointer)} (files : (bound.map Prod.fst).Nodup) (body : File)
    (entry : Option Pointer) : (((body, entry) :: bound.filter fun b => b.1 ≠ body).map Prod.fst).Nodup := by
  rw [List.map_cons, List.nodup_cons]
  constructor
  · intro mem
    obtain ⟨b, inside, same⟩ := List.mem_map.mp mem
    exact of_decide_eq_true (List.mem_filter.mp inside).2 same
  · exact files.sublist (List.filter_sublist.map Prod.fst)

theorem Books.rebound {inside : Bool} (books : Books inside none count bound s) (bound' : List (File × Option Pointer)) :
    Books inside none count bound' { s with locked_entries := bound' } where
  interface := books.interface
  readers := books.readers
  reading := books.reading
  writing := books.writing
  resident := books.resident
  unborn := books.unborn
  written := books.written
  entries := rfl

/-! ## Handing out -/

theorem get_locked_books {url : Text} (books : Books true none count bound s) :
    ((get_locked_entry_from_cache_table url).run s).Ends (Orderly strict) fun r s' =>
      (s.findEntry url = none ∧ r = .ok none ∧ s' = s) ∨
        ∃ e, s.findEntry url = some e ∧ r = .ok (some e) ∧ e < s'.next ∧
          Books true none (Function.update count e (count e + 1)) bound s' := by
  unfold get_locked_entry_from_cache_table
  apply ends_read
  intro entry found
  cases entry with
  | none => exact .inl ⟨found, rfl, rfl⟩
  | some e =>
      have born : e < s.next := books.resident _ e (findEntry_some found).1
      refine ends_seq (fun _ s' => e < s'.next ∧ Books true none (Function.update count e (count e + 1)) bound s')
        ((lock_read_response_books books born).mono fun r s' after => ?_) fun _ s' after => ?_
      · obtain ⟨rfl, after⟩ := after
        exact after
      · exact .inr ⟨e, found, rfl, after⟩

theorem bind_books {body : File} (books : Books true none count bound s) :
    ((bind_entry_to_data e body).run s).Ends stops fun r s' =>
      r = .ok () ∧ Books true none count ((body, some e) :: bound.filter fun b => b.1 ≠ body) s' := by
  refine modify_seq books rfl fun s' books _ => ?_
  rw [← books.entries]
  exact ⟨rfl, books.rebound _⟩

/-- The file that is opened for a response is not one of those that are open. -/
def Io.Fits (io : Io) (s : Cache) : Prop := ∀ f, io.openBody = some f → f ∉ s.handedOut.map Prod.fst

/-- What has been handed out after a response has been asked for, which is found with an entry. -/
def afterGet (found : Option Pointer) (handed : List (File × Pointer)) : Except String (Option File) → List (File × Pointer)
  | .ok (some f) => found.toList.map (f, ·) ++ handed
  | _ => handed

theorem get_serves (io : Io) (url : Text) : Serves strict (get_cached_response io url)
    (fun s => Quiet s ∧ io.Fits s ∧ ∀ e, s.findEntry url = some e → io.metadata.isSome ∧ io.openBody.isSome)
    fun s r s' => Quiet s' ∧ s'.handedOut = afterGet (s.findEntry url) s.handedOut r := by
  refine ⟨_, rfl, fun s ready => ?_⟩
  obtain ⟨quiet, fits, opens⟩ := ready
  have found := @get_locked_books strict _ _ _ url (quiet.books.set_interface true)
  rw [ends_bind]
  apply found.mono
  intro r s' after
  rcases after with ⟨missing, rfl, rfl⟩ | ⟨e, is, rfl, born, books⟩
  · exact ⟨⟨(quiet.books.set_interface true).set_interface false, quiet.files⟩, rfl⟩
  · obtain ⟨readable, opened⟩ := opens e is
    obtain ⟨headers, metadata⟩ := Option.isSome_iff_exists.mp readable
    obtain ⟨f, file⟩ := Option.isSome_iff_exists.mp opened
    have given : handOut io e = (bind_entry_to_data e f >>= fun _ => (pure f : Act File)) := by
      unfold handOut read_metadata open_body
      rw [metadata, file]
      rfl
    have handed : handedIn ((f, some e) :: s.locked_entries.filter fun b => b.1 ≠ f) = (f, e) :: s.handedOut := by
      have others := (handedIn_filter s.locked_entries f).trans (filter_of_fresh (fits f file))
      exact congrArg ((f, e) :: ·) others
    change Progress.Ends (Orderly strict) _ ((((handOut io e).onThrow unlock_cache_interface) >>= fun f =>
      unlock_cache_interface >>= fun _ => (pure (some f) : Act (Option File))).run s')
    rw [given, ends_bind, ends_onThrow, ends_bind]
    apply (bind_books books).mono
    intro r s'' after
    obtain ⟨rfl, books⟩ := after
    have entries : s''.locked_entries = (f, some e) :: s.locked_entries.filter fun b => b.1 ≠ f := books.entries
    refine ⟨⟨?_, ?_⟩, ?_⟩
    · have closed := books.set_interface false
      rw [← readersIn_cons f e s.handedOut, ← handed] at closed
      rw [← entries] at closed
      exact closed
    · change (s''.locked_entries.map Prod.fst).Nodup
      rw [entries]
      exact nodup_files quiet.files f (some e)
    · change handedIn s''.locked_entries = afterGet (s.findEntry url) s.handedOut (.ok (some f))
      have here : s.findEntry url = some e := is
      rw [entries, handed, afterGet, here]
      rfl

/-! ## Releasing -/

theorem filter_of_absent {bound : List (File × Option Pointer)} {body : File} (absent : body ∉ bound.map Prod.fst) :
    (bound.filter fun b => b.1 ≠ body) = bound := by
  apply List.filter_eq_self.mpr
  intro b mem
  exact decide_eq_true fun same => absent (same ▸ List.mem_map_of_mem mem)

/-- A response that is bound is one of those handed out. -/
theorem handedIn_perm {bound : List (File × Option Pointer)} (files : (bound.map Prod.fst).Nodup) {body : File}
    (here : bound.lookup body = some (some e)) :
    (handedIn bound).Perm ((body, e) :: handedIn (bound.filter fun b => b.1 ≠ body)) := by
  induction bound with
  | nil => cases here
  | cons b bound ih =>
      obtain ⟨file, entry⟩ := b
      rw [List.map_cons, List.nodup_cons] at files
      by_cases same : body = file
      · subst same
        have is : entry = some e := Option.some.inj (List.lookup_cons_self.symm.trans here)
        subst is
        have rest := filter_of_absent files.1
        rw [List.filter_cons_of_neg (by simp), rest]
        exact .refl _
      · have later : bound.lookup body = some (some e) := by
          have other : (body == file) = false := beq_eq_false_iff_ne.mpr same
          rwa [List.lookup_cons, other] at here
        rw [List.filter_cons_of_pos (by simpa using Ne.symm same)]
        cases entry with
        | none => exact ih files.2 later
        | some e' => exact ((ih files.2 later).cons (file, e')).trans (.swap ..)

/-- A file that is not bound to an entry. -/
theorem handedIn_unbound {bound : List (File × Option Pointer)} (files : (bound.map Prod.fst).Nodup) {body : File}
    (unbound : (bound.lookup body).join = none) :
    handedIn (bound.filter fun b => b.1 ≠ body) = handedIn bound := by
  induction bound with
  | nil => rfl
  | cons b bound ih =>
      obtain ⟨file, entry⟩ := b
      rw [List.map_cons, List.nodup_cons] at files
      by_cases same : body = file
      · subst same
        have is : entry = none := by rwa [List.lookup_cons_self] at unbound
        subst is
        rw [List.filter_cons_of_neg (by simp), filter_of_absent files.1]
        rfl
      · have later : (bound.lookup body).join = none := by
          have other : (body == file) = false := beq_eq_false_iff_ne.mpr same
          rwa [List.lookup_cons, other] at unbound
        have rest := ih files.2 later
        rw [List.filter_cons_of_pos (by simpa using Ne.symm same)]
        cases entry with
        | none => exact rest
        | some e => exact congrArg ((file, e) :: ·) rest

def afterRelease (body : File) (handed : List (File × Pointer)) : Except String Unit → List (File × Pointer)
  | .ok _ => handed.filter fun h => h.1 ≠ body
  | .error _ => handed

/-- Releasing what has not been handed out changes nothing for the entries. -/
theorem release_serves (body : File) : Serves strict (release_cached_response body) Quiet fun s r s' =>
    Quiet s' ∧ s'.handedOut = afterRelease body s.handedOut r := by
  refine ⟨_, rfl, fun s quiet => ?_⟩
  rw [ends_bind, ends_onThrow, uncouple_entry_from_data]
  apply ends_read
  intro entry here
  cases entry with
  | none =>
      have same := handedIn_unbound quiet.files here
      have kept : handedIn ((body, none) :: s.locked_entries.filter fun b => b.1 ≠ body) = s.handedOut := same
      refine ⟨⟨?_, nodup_files quiet.files body none⟩, kept⟩
      have books := quiet.books.rebound ((body, none) :: s.locked_entries.filter fun b => b.1 ≠ body)
      rw [← kept] at books
      exact (books.set_interface true).set_interface false
  | some e =>
      have there : s.locked_entries.lookup body = some (some e) := Option.join_eq_some_iff.mp here
      have parts := handedIn_perm quiet.files there
      have one : readersIn s.handedOut e = readersIn (handedIn (s.locked_entries.filter fun b => b.1 ≠ body)) e + 1 := by
        have counted := congrFun (readersIn_cons body e (handedIn (s.locked_entries.filter fun b => b.1 ≠ body))) e
        rw [Function.update_self] at counted
        exact (parts.countP_eq _).trans counted
      have others : Function.update (readersIn s.handedOut) e
          (readersIn (handedIn (s.locked_entries.filter fun b => b.1 ≠ body)) e) =
          readersIn (handedIn (s.locked_entries.filter fun b => b.1 ≠ body)) := by
        have counted : readersIn s.handedOut =
            readersIn ((body, e) :: handedIn (s.locked_entries.filter fun b => b.1 ≠ body)) := by
          funext e'
          exact parts.countP_eq _
        rw [counted, readersIn_cons, Function.update_idem, Function.update_eq_self]
      have born : e < s.next := by
        by_contra above
        have none_ := quiet.books.unborn e (Nat.le_of_not_lt above)
        omega
      have books := (quiet.books.set_interface true).rebound (s.locked_entries.filter fun b => b.1 ≠ body)
      change Progress.Ends (Orderly strict) _ ((unlock_read_response e >>= fun _ => (do
        let entry ← entryAt e
        if entry.readers < 0 then throw "An unlocked entry was released" else return : Act Unit)).run _)
      rw [ends_bind]
      apply (unlock_read_response_books books born one).mono
      intro r s' after
      obtain ⟨rfl, next, books⟩ := after
      rw [others] at books
      have counted : ¬(s'.heap e).readers < 0 := by
        rw [books.readers e (next ▸ born)]
        omega
      change Progress.Ends (Orderly strict) _ ((if (s'.heap e).readers < 0 then
        (throw "An unlocked entry was released" : Act Unit) else pure ()).run s')
      rw [if_neg counted]
      have entries : s'.locked_entries = s.locked_entries.filter fun b => b.1 ≠ body := books.entries
      refine ⟨⟨?_, ?_⟩, ?_⟩
      · have closed := books.set_interface false
        rw [← entries] at closed
        exact closed
      · change (s'.locked_entries.map Prod.fst).Nodup
        rw [entries]
        exact quiet.files.sublist (List.filter_sublist.map Prod.fst)
      · change handedIn s'.locked_entries = _
        rw [entries]
        exact handedIn_filter s.locked_entries body

/-! ## Writing -/

theorem Quiet.of_books {s' : Cache} (quiet : Quiet s) (books : Books false none (readersIn s.handedOut) s.locked_entries s') :
    Quiet s' ∧ s'.handedOut = s.handedOut := by
  have entries := books.entries
  have same : s'.handedOut = s.handedOut := congrArg handedIn entries
  rw [← entries, ← same] at books
  exact ⟨⟨books, entries ▸ quiet.files⟩, same⟩

/-- The metadata can be written. -/
def Io.Writes (io : Io) (headers : List Text) : Prop :=
  io.metadataOpens = true ∧
    ∀ header ∈ headers.filter (fun header => !is_hop_by_hop_header header), header ≠ [] ∧ io.headerWrites header = true

theorem write_metadata_run {io : Io} {headers : List Text} (writes : io.Writes headers) (s : Cache) :
    (write_metadata io headers).run s = .done () s := by
  have opens : ¬io.metadataOpens = false := by rw [writes.1]; exact Bool.noConfusion
  have each := writes.2
  unfold write_metadata
  rw [if_neg opens]
  generalize headers.filter (fun header => !is_hop_by_hop_header header) = kept at each
  induction kept with
  | nil => rfl
  | cons header kept ih =>
      have one := each header List.mem_cons_self
      have writes : writeHeader io header = pure () := by
        unfold writeHeader
        rw [if_neg (by rw [one.2]; simp [one.1])]
      rw [List.forM_cons, writes]
      exact ih fun other mem => each other (List.mem_cons_of_mem header mem)

theorem get_write_locked_books {url : Text} (books : Books true none count bound s)
    (idle : strict = true → ∀ e, s.findEntry url = some e → count e = 0) :
    ((get_write_locked_entry_from_cache_table url).run s).Ends (Orderly strict) fun r s' =>
      (s.findEntry url = none ∧ r = .ok none ∧ s' = s) ∨
        ∃ e, s.findEntry url = some e ∧ r = .ok (some e) ∧ Books true (some e) count bound s' := by
  unfold get_write_locked_entry_from_cache_table
  apply ends_read
  intro entry found
  cases entry with
  | none => exact .inl ⟨found, rfl, rfl⟩
  | some e =>
      have born : e < s.next := books.resident _ e (findEntry_some found).1
      refine ends_seq (fun _ s' => Books true (some e) count bound s')
        ((lock_write_response_books books born fun is => idle is e found).mono fun r s' after => ?_) fun _ s' after => ?_
      · obtain ⟨rfl, -, -, after⟩ := after
        exact after
      · exact .inr ⟨e, found, rfl, after⟩

theorem updateEntry_books {io : Io} {request_time : Int} {headers old_headers : List Text}
    (books : Books true (some e) count bound s) (metadata : io.metadata = some old_headers)
    (writes : io.Writes (mergeHeaders headers old_headers)) :
    ((updateEntry io e request_time headers).run s).Ends stops fun r s' =>
      r = .ok () ∧ Books false none count bound s' := by
  have read : read_metadata io = pure old_headers := by
    unfold read_metadata
    rw [metadata]
  unfold updateEntry
  rw [read]
  refine ends_seq (fun _ s' => Books true (some e) count bound s') books fun max_entry_size s books => ?_
  refine ends_seq (fun _ s' => Books true (some e) count bound s') books fun default_expiration s books => ?_
  have parsed := (parse_headers_storage io.parse_time (s.heap e) max_entry_size headers).readers
  refine modify_seq books parsed fun s books _ => ?_
  have dated := (calculate_time_storage (s.heap e) default_expiration request_time io.now).readers
  refine modify_seq books dated fun s books _ => ?_
  refine ends_seq (fun merged s' => merged = old_headers ∧ Books true (some e) count bound s') ⟨rfl, books⟩
    fun _ s after => ?_
  obtain ⟨rfl, books⟩ := after
  rw [ends_bind, write_metadata_run writes]
  refine ends_seq (fun _ s' => Books true none count bound s')
    ((unlock_write_response_books books).mono fun r s after => ?_) fun _ s books => ?_
  · obtain ⟨rfl, -, books⟩ := after
    exact books
  · exact ⟨rfl, books.set_interface false⟩

theorem update_serves (io : Io) (url : Text) (request_time : Int) (headers : List Text) :
    Serves strict (update_response io url request_time headers)
      (fun s => Quiet s ∧ (strict = true → ∀ e, s.findEntry url = some e → readersIn s.handedOut e = 0) ∧
        ∀ e, s.findEntry url = some e → ∃ old, io.metadata = some old ∧ io.Writes (mergeHeaders headers old))
      fun s _ s' => Quiet s' ∧ s'.handedOut = s.handedOut := by
  refine ⟨_, rfl, fun s ready => ?_⟩
  obtain ⟨quiet, idle, opens⟩ := ready
  have found := @get_write_locked_books strict _ _ _ url (quiet.books.set_interface true) idle
  rw [ends_bind]
  apply found.mono
  intro r s' after
  rcases after with ⟨missing, rfl, rfl⟩ | ⟨e, is, rfl, books⟩
  · exact quiet.of_books ((quiet.books.set_interface true).set_interface false)
  · obtain ⟨old, metadata, writes⟩ := opens e is
    change Progress.Ends (Orderly strict) _ (((updateEntry io e request_time headers).onThrow _).run s')
    rw [ends_onThrow]
    apply (updateEntry_books books metadata writes).mono
    intro r s'' after
    obtain ⟨rfl, books⟩ := after
    exact quiet.of_books books

/-! ## Storing -/

/-- No response for an entry of the URL has been handed out, where that matters. -/
def Idle (strict : Bool) (count : Pointer → Nat) (url : Text) (s : Cache) : Prop :=
  strict = true → ∀ slot e, some e ∈ s.cache_table slot → (s.heap e).url = url → count e = 0

/-- What the removal of the entries of a URL starts and ends with. -/
structure Removing (strict : Bool) (count : Pointer → Nat) (bound : List (File × Option Pointer)) (url : Text) (most : Nat)
    (s : Cache) : Prop where
  books : Books true none count bound s
  idle : Idle strict count url s
  most : s.max_entry_size = most

theorem removing_visits (url : Text) (most : Nat) (slot : Nat) :
    Visits (Orderly strict) (Removing strict count bound url most) (DeleteCacheEntry url) slot := by
  intro i e s removing here
  have mem := List.mem_of_getElem? here
  have born := removing.books.resident slot e mem
  unfold DeleteCacheEntry
  rw [ends_bind]
  change Progress.Ends (Orderly strict) _ ((if (s.heap e).url = url then _ else _ : Act Bool).run s)
  split
  · rename_i same
    rw [ends_bind]
    have idle : strict = true → count e = 0 := fun is => removing.idle is slot e mem same
    apply (lock_write_response_books removing.books born idle).mono
    intro r s₁ after
    obtain ⟨rfl, unread, rest, books⟩ := after
    have readers : (s₁.heap e).readers = 0 := by
      rw [rest]
      exact (removing.books.readers e born).trans (by rw [unread]; rfl)
    change Progress.Ends (Orderly strict) _ ((remove_cache_entry e >>= fun _ => _ : Act Bool).run s₁)
    rw [ends_bind, remove_cache_entry_run readers]
    change Progress.Ends (Orderly strict) _ ((unlock_write_response e >>= fun _ => _ : Act Bool).run _)
    rw [ends_bind]
    have smaller (size : Nat) : Books true (some e) count bound { s₁ with current_size := size } :=
      books.of_same rfl rfl (fun _ _ => rfl) books.resident rfl
    apply (unlock_write_response_books (smaller _)).mono
    intro r s₂ after
    obtain ⟨rfl, rest', books⟩ := after
    have table : s₂.cache_table = s.cache_table := by rw [rest', rest]
    have heap : s₂.heap = s.heap := by rw [rest', rest]
    refine ⟨books.nulled slot i, fun is other e' mem' of => ?_, ?_⟩
    · have before := mem_nulled mem'
      rw [table] at before
      exact removing.idle is other e' before ((congrArg (fun heap => (heap e').url) heap).symm.trans of)
    · change s₂.max_entry_size = most
      rw [rest', rest]
      exact removing.most
  · exact removing

theorem keeps_remove_entry (url : Text) (most : Nat) :
    Keeps (Orderly strict) (Removing strict count bound url most) (remove_entry_from_cache_table url) := by
  apply keeps_forSlot (removing_visits url most _)
  intro s removing
  exact ⟨removing.books.erased _, fun is other e mem => removing.idle is other e (mem_erased mem), removing.most⟩

/-- Nothing fails while a new entry is written. -/
structure Io.Stores (io : Io) (headers : List Text) : Prop where
  mkdir : io.mkdir = none
  mkstemp : io.mkstemp.isSome
  body : ∃ bytes, io.body = .written bytes
  metadata : io.Writes headers

theorem fillEntry_books {io : Io} {request_time : Int} {headers : List Text} {url : Text}
    (books : Books true (some e) count bound s) (hash : (s.heap e).hash = get_hash url) (stores : io.Stores headers) :
    ((fillEntry io e request_time headers).run s).Ends stops fun r s' =>
      r = .ok () ∧ Books true none count bound s' := by
  obtain ⟨name, named⟩ := Option.isSome_iff_exists.mp stores.mkstemp
  obtain ⟨bytes, written⟩ := stores.body
  have wrote : write_body io = pure (i32 bytes) := by
    unfold write_body
    rw [written]
  have placed (s : Cache) : (create_location io e).run s =
      (modifyEntry e fun entry => { entry with cachename := name }).run s := by
    simp only [create_location, create_hash_directory, stores.mkdir, named]
    rfl
  have slot := get_hash_lt url
  unfold fillEntry
  rw [wrote]
  refine ends_seq (fun _ s' => s' = s) rfl fun default_expiration s' same => ?_
  subst same
  refine modify_seq books (calculate_time_storage _ _ _ _).readers fun s₁ books is₁ => ?_
  rw [ends_bind, placed, ← ends_bind]
  refine modify_seq books rfl fun s₂ books is₂ => ?_
  refine ends_seq (fun _ s' => s' = s₂) rfl fun total s' same => ?_
  subst same
  refine modify_seq books rfl fun s₃ books is₃ => ?_
  have fits : (s₃.heap e).hash = get_hash url := by
    rw [is₃, is₂, is₁]
    exact hash
  rw [ends_done (write_metadata_run stores.metadata s₃), ends_done (add_entry_run (by rw [fits]; omega))]
  apply (unlock_write_response_books (books.added (books.written e rfl).1)).mono
  intro r s' after
  exact ⟨after.1, after.2.2⟩

/-- The response would be kept. -/
def Storable (io : Io) (url : Text) (headers : List Text) (max_entry_size : Nat) : Prop :=
  (contains url "http:" ∨ contains url "https:") ∧
    (parse_headers io.parse_time (CacheEntry.ofUrl url) max_entry_size headers).no_cache = false

theorem storeResponse_books {io : Io} {url : Text} {request_time : Int} {headers : List Text}
    (books : Books true none count bound s) (idle : Idle strict count url s)
    (stores : Storable io url headers s.max_entry_size → io.Stores headers) :
    ((storeResponse io url request_time headers).run s).Ends (Orderly strict) fun r s' =>
      Books (match r with | .ok false => false | _ => true) none count bound s' := by
  unfold storeResponse
  split
  · exact books.set_interface false
  · rename_i kind
    have known : contains url "http:" ∨ contains url "https:" := by
      simp only [Bool.and_eq_true, Bool.not_eq_true', not_and, Bool.not_eq_false] at kind
      by_cases plain : contains url "http:" = true
      · exact .inl plain
      · exact .inr (kind (Bool.eq_false_iff.mpr plain))
    have removed := (keeps_remove_entry url s.max_entry_size).ends s ⟨books, idle, rfl⟩
    refine ends_seq (fun _ s' => Removing strict count bound url s.max_entry_size s')
      (removed.mono fun r s' after => ?_) fun _ s₁ removing => ?_
    · cases r with
      | ok _ => exact after
      | error _ => exact after.books
    · rw [ends_bind]
      apply (newEntry_books removing.books rfl).mono
      intro r s₂ after
      obtain ⟨e, rfl, born, unread, is₂, most, books⟩ := after
      change Progress.Ends (Orderly strict) _ ((lock_write_response e >>= fun _ => _ : Act Bool).run s₂)
      rw [ends_bind]
      apply (lock_write_response_books books born fun _ => unread).mono
      intro r s₃ after
      obtain ⟨rfl, -, rest, books⟩ := after
      have most₃ : s₃.max_entry_size = s.max_entry_size := by
        rw [rest]
        exact most.trans removing.most
      have is₃ : s₃.heap e = CacheEntry.ofUrl url := by
        rw [rest]
        exact is₂
      refine ends_seq (fun most s' => most = s.max_entry_size ∧ s' = s₃) ⟨most₃, rfl⟩ fun most' s' same => ?_
      obtain ⟨rfl, rfl⟩ := same
      have parsed := parse_headers_storage io.parse_time (s'.heap e) s.max_entry_size headers
      refine modify_seq books parsed.readers fun s₄ books is₄ => ?_
      rw [is₃] at is₄ parsed
      refine ends_seq (fun entry s' => entry = s₄.heap e ∧ s' = s₄) ⟨rfl, rfl⟩ fun entry s' same => ?_
      obtain ⟨rfl, rfl⟩ := same
      split
      · refine ends_seq (fun _ s' => Books true none count bound s')
          ((unlock_write_response_books books).mono fun r s' after => ?_) fun _ s' books => books.set_interface false
        obtain ⟨rfl, -, books⟩ := after
        exact books
      · rename_i kept
        have storable : Storable io url headers s.max_entry_size := by
          rw [is₄] at kept
          exact ⟨known, Bool.eq_false_iff.mpr kept⟩
        have hash : (s'.heap e).hash = get_hash url := by
          rw [is₄]
          exact parsed.hash
        refine ends_seq (fun _ s' => Books true none count bound s')
          ((fillEntry_books books hash (stores storable)).mono fun r s' after => ?_) fun _ s' books => ?_
        · obtain ⟨rfl, books⟩ := after
          exact books
        · refine ends_seq (fun _ s' => Books true none count bound s')
            (((keeps_dump io).ends s' books).mono fun r s' after => ?_) fun _ s' books => books
          cases r with
          | ok _ => exact after
          | error _ => exact after

theorem store_serves (io : Io) (url : Text) (request_time : Int) (headers : List Text) :
    Serves strict (cache_response io url request_time headers)
      (fun s => Quiet s ∧ Idle strict (readersIn s.handedOut) url s ∧
        (Storable io url headers s.max_entry_size → io.Stores headers))
      fun s _ s' => Quiet s' ∧ s'.handedOut = s.handedOut := by
  refine ⟨_, rfl, fun s ready => ?_⟩
  obtain ⟨quiet, idle, stores⟩ := ready
  have stored := @storeResponse_books strict _ _ _ io url request_time headers (quiet.books.set_interface true) idle stores
  rw [ends_bind, ends_onThrow]
  apply stored.mono
  intro r s' books
  cases r with
  | error _ => exact quiet.of_books (books.set_interface false)
  | ok stored =>
      cases stored with
      | true => exact quiet.of_books (books.set_interface false)
      | false => exact quiet.of_books books

theorem purge_serves (io : Io) : Serves strict (purge_cache io) Quiet fun s _ s' => Quiet s' ∧ s'.handedOut = s.handedOut := by
  refine ⟨_, rfl, fun s quiet => ?_⟩
  have purged : Keeps (Orderly strict) (Books true none (readersIn s.handedOut) s.locked_entries) (purge io) := by
    unfold purge
    apply keeps_bind (keeps_read _)
    exact fun _ => keeps_ite (keeps_throw _) (keeps_delete_all_entries io.indexRemoved)
  rw [ends_bind, ends_onThrow]
  apply (purged.ends _ (quiet.books.set_interface true)).mono
  intro r s' books
  cases r with
  | error _ => exact quiet.of_books (books.set_interface false)
  | ok _ => exact quiet.of_books (books.set_interface false)

end

/-! ## Runs of calls -/

inductive Call where
  | get_cached_response (url : Text)
  | release_cached_response (body : File)
  | update_response (url : Text) (request_time : Int) (headers : List Text)
  | cache_response (url : Text) (request_time : Int) (headers : List Text)
  | purge_cache

/-- The response that a call hands out, if it does. -/
def Call.act (io : Io) : Call → Act (Option File)
  | get_cached_response url => Http.get_cached_response io url
  | release_cached_response body => Http.release_cached_response body >>= fun _ => pure none
  | update_response url request_time headers => Http.update_response io url request_time headers >>= fun _ => pure none
  | cache_response url request_time headers => Http.cache_response io url request_time headers >>= fun _ => pure none
  | purge_cache => Http.purge_cache io >>= fun _ => pure none

/-- Nothing fails while a call has locked an entry. -/
def Call.Sound (io : Io) (s : Cache) : Call → Prop
  | get_cached_response url => ∀ e, s.findEntry url = some e → io.metadata.isSome ∧ io.openBody.isSome
  | update_response url _ headers =>
      ∀ e, s.findEntry url = some e → ∃ old, io.metadata = some old ∧ io.Writes (mergeHeaders headers old)
  | cache_response url _ headers => Storable io url headers s.max_entry_size → io.Stores headers
  | release_cached_response _ | purge_cache => True

/-- A call that writes finds no response for its URL handed out. -/
def Call.Unread (s : Cache) : Call → Prop
  | update_response url _ _ => ∀ e, s.findEntry url = some e → readersIn s.handedOut e = 0
  | cache_response url _ _ => ∀ slot e, some e ∈ s.cache_table slot → (s.heap e).url = url → readersIn s.handedOut e = 0
  | _ => True

/-- What has been handed out and not been released after a call. -/
def Call.handed (found : Text → Option Pointer) (handed : List (File × Pointer)) (r : Except String (Option File)) :
    Call → List (File × Pointer)
  | get_cached_response url => afterGet (found url) handed r
  | release_cached_response body => afterRelease body handed (r.map fun _ => ())
  | _ => handed

theorem Serves.giving {α β : Type} {strict : Bool} {call : Act α} {pre pre' : Cache → Prop}
    {post : Cache → Except String α → Cache → Prop} {post' : Cache → Except String β → Cache → Prop}
    (serves : Serves strict call pre post) (b : β) (weaker : ∀ s, pre' s → pre s)
    (after : ∀ s r s', post s r s' → post' s (r.map fun _ => b) s') :
    Serves strict (call >>= fun _ => pure b) pre' post' := by
  obtain ⟨body, rfl, ends⟩ := serves
  refine ⟨body >>= fun _ => pure b, rfl, fun s ready => ?_⟩
  rw [ends_bind]
  apply (ends s (weaker s ready)).mono
  intro r s' done
  cases r with
  | ok a => exact after s (.ok a) s' done
  | error e => exact after s (.error e) s' done

theorem call_serves (strict : Bool) (io : Io) (call : Call) :
    Serves strict (call.act io) (fun s => Quiet s ∧ io.Fits s ∧ call.Sound io s ∧ (strict = true → call.Unread s))
      fun s r s' => Quiet s' ∧ s'.handedOut = call.handed s.findEntry s.handedOut r := by
  cases call with
  | get_cached_response url =>
      obtain ⟨body, same, ends⟩ := @get_serves strict io url
      exact ⟨body, same, fun s ready => ends s ⟨ready.1, ready.2.1, ready.2.2.1⟩⟩
  | release_cached_response body =>
      refine (release_serves body).giving none (fun s ready => ready.1) fun s r s' after => ?_
      cases r with
      | ok _ => exact after
      | error _ => exact after
  | update_response url request_time headers =>
      exact (update_serves io url request_time headers).giving none
        (fun s ready => ⟨ready.1, ready.2.2.2, ready.2.2.1⟩) fun s r s' after => after
  | cache_response url request_time headers =>
      exact (store_serves io url request_time headers).giving none
        (fun s ready => ⟨ready.1, ready.2.2.2, ready.2.2.1⟩) fun s r s' after => after
  | purge_cache => exact (purge_serves io).giving none (fun s ready => ready.1) fun s r s' after => after

/-- A cache and what has been handed out and not been released, each response with its entry. -/
structure Session where
  cache : Cache
  handed : List (File × Pointer)

/-- A call that comes to an end. No file is opened twice at a time. -/
inductive Session.Step : Session → Io × Call → Session → Prop where
  | call {S : Session} {io : Io} {call : Call} {r : Except String (Option File)} {s' : Cache}
      (opened : ∀ f, io.openBody = some f → f ∉ S.handed.map Prod.fst)
      (result : ((call.act io).run S.cache).alone = some (r, s')) :
      Step S (io, call) ⟨s', call.handed S.cache.findEntry S.handed r⟩

/-- The readers of every entry are the responses for it, which alone lock it. -/
def Session.Accounted (S : Session) : Prop :=
  ∀ e < S.cache.next, (S.cache.heap e).readers = readersIn S.handed e ∧
    (S.cache.locked (.d_response_lock e) = true ↔ 0 < readersIn S.handed e) ∧
    S.cache.locked (.d_response_write_lock e) = false

/-- A new cache, which has read its index. -/
def Constructed (s : Cache) : Prop :=
  ∃ (c : Cache) (found : Bool), (cache_index_read.run c.emptied).alone = some (.ok found, s)

theorem keeps_cache_index_read {stops : Mutex → Cache → Prop} {inside : Bool} {count : Pointer → Nat}
    {bound : List (File × Option Pointer)} : Keeps stops (Books inside none count bound) cache_index_read := by
  have line (line : Text) : Keeps stops (Books inside none count bound) (readIndexLine line) := by
    constructor
    intro s books
    unfold readIndexLine
    rw [ends_bind]
    apply (newEntry_books books (show (cache_index_parse_line line).readers = 0 from rfl)).mono
    intro r s' after
    obtain ⟨e, rfl, born, -, -, -, books⟩ := after
    change Progress.Ends stops _ ((add_entry_to_cache_table e).run s')
    by_cases fits : 0 ≤ (s'.heap e).hash ∧ (s'.heap e).hash ≤ CACHE_TABLE_SIZE - 1
    · rw [add_entry_run fits]
      exact books.added born
    · change Progress.Ends stops _ ((if (CACHE_TABLE_SIZE : Int) - 1 < (s'.heap e).hash ∨ (s'.heap e).hash < 0 then
        (throw "Hash value too large!" : Act Unit) else write _).run s')
      rw [if_pos (by omega)]
      exact books
  constructor
  intro s books
  apply ends_read
  intro index _
  cases index with
  | none => exact books
  | some text =>
      have lines : Keeps stops (Books inside none count bound)
          (forM (fgetsLines [] text) readIndexLine : Act Unit) := keeps_forM _ fun l _ => line l
      apply Keeps.ends _ s books
      apply keeps_bind lines
      intro _
      exact keeps_bind (keeps_write fun s books => books.of_same rfl rfl (fun _ _ => rfl) books.resident rfl)
        fun _ => keeps_pure true

theorem quiet_of_constructed {s : Cache} (constructed : Constructed s) : Quiet s ∧ s.handedOut = [] := by
  obtain ⟨c, found, result⟩ := constructed
  have start : Books false none (fun _ => 0) [] c.emptied := by
    constructor
    · rfl
    · exact fun e born => absurd born (Nat.not_lt_zero e)
    · exact fun e born => absurd born (Nat.not_lt_zero e)
    · exact fun e born => absurd born (Nat.not_lt_zero e)
    · exact fun slot e mem => absurd mem List.not_mem_nil
    · exact fun e _ => rfl
    · intro e is
      cases is
    · rfl
  have kept : Keeps (fun _ _ => True) (Books false none (fun _ => 0) []) cache_index_read := keeps_cache_index_read
  have books : Books false none (fun _ => 0) [] s := (kept.ends _ start).alone result
  have none_ : s.handedOut = [] := congrArg handedIn books.entries
  refine ⟨⟨?_, ?_⟩, none_⟩
  · rw [none_, books.entries]
    exact books
  · rw [books.entries]
    exact List.nodup_nil

theorem Serves.alone {α : Type} {call : Act α} {pre : Cache → Prop} {post : Cache → Except String α → Cache → Prop}
    (serves : Serves false call pre post) {s s' : Cache} {r : Except String α} (free : s.locked .d_cache_mutex = false)
    (ready : pre s) (result : (call.run s).alone = some (r, s')) : post s r s' := by
  obtain ⟨body, rfl, ends⟩ := serves
  have inside : (body.run (setLocked s Mutex.d_cache_mutex true)).alone = some (r, s') := by
    change (if isLocked s Mutex.d_cache_mutex then none else _) = _ at result
    have open_ : isLocked s Mutex.d_cache_mutex = false := free
    rw [open_] at result
    exact result
  exact (ends s ready).alone inside

def Session.Kept (S : Session) : Prop := Quiet S.cache ∧ S.cache.handedOut = S.handed

theorem Session.Kept.step {S S' : Session} {call : Io × Call} (kept : S.Kept) (sound : call.2.Sound call.1 S.cache)
    (step : Step S call S') : S'.Kept := by
  obtain ⟨quiet, same⟩ := kept
  cases step with
  | call opened result =>
      rw [← same] at opened ⊢
      exact (call_serves false _ _).alone quiet.books.interface ⟨quiet, opened, sound, fun is => Bool.noConfusion is⟩ result

theorem Session.Kept.accounted {S : Session} (kept : S.Kept) : S.Accounted := by
  obtain ⟨quiet, same⟩ := kept
  intro e born
  rw [← same]
  refine ⟨quiet.books.readers e born, ?_, ?_⟩
  · rw [quiet.books.reading e born]
    simp
  · rw [quiet.books.writing e born]
    rfl

/-- In a run in which no call fails while it has locked an entry. -/
theorem locks_accounted {s : Cache} (constructed : Constructed s) {calls : List (Io × Call)} {S : Session}
    (run : Run (Under (fun S call => call.2.Sound call.1 S.cache) Session.Step) ⟨s, []⟩ calls S) : S.Accounted := by
  have kept : S.Kept := run.keeps (fun before taken => before.step taken.1 taken.2) (quiet_of_constructed constructed)
  exact kept.accounted

/-- A system in which everything can be read and written. -/
def Io.ready : Io :=
  { now := 0, parse_time := fun _ => 0, mkdir := none, mkstemp := some [], body := .written 5, metadataOpens := true,
    headerWrites := fun _ => true, metadata := some [], openBody := some 1, indexFile := .written,
    indexRemoved := true, rounds := 0 }

/-- A new cache without an index. -/
def Cache.unused : Cache :=
  { heap := fun _ => .empty, next := 0, locked := fun _ => false, cache_table := fun _ => [], block_size := 4096
    current_size := 0, new_entries := 0, locked_entries := [], index := none, cache_root := [], total_size := 20971520
    folder_size := 0, gc_buffer := 2097152, max_entry_size := 3145728, expire_ignored := false
    default_expiration := 86400 }

theorem unused_constructed : Constructed Cache.unused := ⟨Cache.unused, false, rfl⟩

/-- A response is stored, handed out and released. -/
theorem stored_accounted : ∃ S, Run (Under (fun S call => call.2.Sound call.1 S.cache) Session.Step) ⟨Cache.unused, []⟩
    [(Io.ready, .cache_response "http:a".toList 0 []), (Io.ready, .get_cached_response "http:a".toList),
      ({ Io.ready with openBody := none }, .release_cached_response 1)] S ∧ S.Accounted := by
  have stores : Io.ready.Stores [] := ⟨rfl, rfl, ⟨5, rfl⟩, rfl, fun header mem => absurd mem List.not_mem_nil⟩
  have nothing : ∀ f, Io.ready.openBody = some f → f ∉ ([] : List (File × Pointer)).map Prod.fst := fun f _ => List.not_mem_nil
  have run : ∃ S, Run (Under (fun S call => call.2.Sound call.1 S.cache) Session.Step) ⟨Cache.unused, []⟩
    [(Io.ready, .cache_response "http:a".toList 0 []), (Io.ready, .get_cached_response "http:a".toList),
      ({ Io.ready with openBody := none }, .release_cached_response 1)] S := by
    refine ⟨_, .cons ⟨fun _ => stores, .call nothing rfl⟩ (.cons ⟨fun e found => ⟨rfl, rfl⟩, .call nothing rfl⟩
      (.cons ⟨trivial, .call ?_ rfl⟩ (.nil _)))⟩
    intro f opened
    cases opened
  obtain ⟨S, run⟩ := run
  exact ⟨S, run, locks_accounted unused_constructed run⟩

/-- Without the metadata a response is not handed out, and its entry stays locked. -/
theorem unreadable_stays_locked : ¬∀ (s : Cache) (calls : List (Io × Call)) (S : Session), Constructed s →
    Run Session.Step ⟨s, []⟩ calls S → S.Accounted := by
  intro always
  have nothing (io : Io) : ∀ f, io.openBody = some f → f ∉ ([] : List (File × Pointer)).map Prod.fst := fun f _ => List.not_mem_nil
  have run : ∃ S, Run Session.Step ⟨Cache.unused, []⟩ [(Io.ready, .cache_response "http:a".toList 0 []),
      ({ Io.ready with metadata := none }, .get_cached_response "http:a".toList)] S ∧
      0 < S.cache.next ∧ (S.cache.heap 0).readers = 1 ∧ S.handed = [] :=
    ⟨_, .cons (.call (nothing _) rfl) (.cons (.call (nothing _) rfl) (.nil _)), by decide, rfl, rfl⟩
  obtain ⟨S, run, born, one, handed⟩ := run
  have zero := (always _ _ S unused_constructed run 0 born).1
  rw [one, handed] at zero
  exact absurd zero (by decide)

end Libdap.Http
