import Libdap.Foundation.Locking
import Libdap.Http.CacheEntry
import Mathlib.Logic.Function.Basic

/-! # The table of the HTTP cache

The table has a slot for each value of the hash, and a slot holds pointers to
entries. What the sizes of the entries come to on disk is added up. An entry has
a lock for reading, a lock for writing and a count of readers.
-/

namespace Libdap.Http

open Ints Dap4

/-- The address of an entry. An address is not used again. -/
abbrev Pointer := Nat

/-- `FILE *` -/
abbrev File := Nat

inductive Mutex where
  | d_cache_mutex
  | d_response_lock (entry : Pointer)
  | d_response_write_lock (entry : Pointer)
  deriving Repr, DecidableEq

/-- The cache and its table. -/
structure Cache where
  heap : Pointer → CacheEntry
  next : Pointer
  locked : Mutex → Bool
  -- the table
  cache_table : Nat → List (Option Pointer)
  block_size : Nat
  current_size : Nat
  new_entries : Nat
  locked_entries : List (File × Option Pointer)
  -- the file with the index
  index : Option Text
  -- the properties of the cache
  cache_root : Text
  total_size : Nat
  folder_size : Nat
  gc_buffer : Nat
  max_entry_size : Nat
  expire_ignored : Bool
  default_expiration : Int

instance : Mutexes Mutex Cache where
  isLocked s m := s.locked m
  setLocked s m taken := { s with locked := Function.update s.locked m taken }

/-- A piece of the code. What is thrown is a message. -/
abbrev Act := Program Mutex Cache String

open Program

def entryAt (p : Pointer) : Act CacheEntry := read fun s => s.heap p

def modifyEntry (p : Pointer) (f : CacheEntry → CacheEntry) : Act Unit :=
  write fun s => { s with heap := Function.update s.heap p (f (s.heap p)) }

/-- `new CacheEntry(u)`, with its mutexes. -/
def newEntry (entry : CacheEntry) : Act Pointer := do
  let p ← read fun s => s.next
  write fun s => { s with next := p + 1, heap := Function.update s.heap p entry }
  UNLOCK (.d_response_lock p)
  UNLOCK (.d_response_write_lock p)
  return p

/-- If locked, wait for any writers. -/
def wait_for_writers (e : Pointer) (taken : Bool) : Act Unit :=
  if taken then pure ()
  else do
    LOCK (.d_response_write_lock e)
    UNLOCK (.d_response_write_lock e)

def lock_read_response (e : Pointer) : Act Unit := do
  let taken ← TRYLOCK (.d_response_lock e)
  wait_for_writers e taken
  modifyEntry e fun entry => { entry with readers := entry.readers + 1 }

def unlock_read_response (e : Pointer) : Act Unit := do
  modifyEntry e fun entry => { entry with readers := entry.readers - 1 }
  let entry ← entryAt e
  if entry.readers = 0 then UNLOCK (.d_response_lock e) else pure ()

def lock_write_response (e : Pointer) : Act Unit := do
  LOCK (.d_response_lock e)
  LOCK (.d_response_write_lock e)

def unlock_write_response (e : Pointer) : Act Unit := do
  UNLOCK (.d_response_write_lock e)
  UNLOCK (.d_response_lock e)

/-- An `int` from an `int` and an `unsigned int`. -/
def entry_disk_space (size : Int) (block_size : Nat) : Int :=
  let num_of_blocks := u32 (u32 size + block_size) / block_size
  i32 (num_of_blocks * block_size : Nat)

/-- An entry whose hash is not a slot is not added. The size is passed as an `int`. -/
def add_entry_to_cache_table (e : Pointer) : Act Unit := do
  let entry ← entryAt e
  if CACHE_TABLE_SIZE - 1 < entry.hash ∨ entry.hash < 0 then throw "Hash value too large!"
  else
    write fun s => { s with
      cache_table := Function.update s.cache_table entry.hash.toNat (s.cache_table entry.hash.toNat ++ [some e])
      current_size := u64 (s.current_size + entry_disk_space (i32 entry.size) s.block_size)
      new_entries := s.new_entries + 1 }

/-- The entry for a URL in a slot: the first one. -/
def Cache.findEntry (s : Cache) (url : Text) : Option Pointer :=
  (s.cache_table (get_hash url)).findSome? fun cell => cell.filter fun e => (s.heap e).url = url

def get_locked_entry_from_cache_table (url : Text) : Act (Option Pointer) := do
  match ← read fun s => s.findEntry url with
  | none => return none
  | some e => do
    lock_read_response e
    return some e

def get_write_locked_entry_from_cache_table (url : Text) : Act (Option Pointer) := do
  match ← read fun s => s.findEntry url with
  | none => return none
  | some e => do
    lock_write_response e
    return some e

def remove_cache_entry (e : Pointer) : Act Unit := do
  let entry ← entryAt e
  if entry.readers ≠ 0 then throw "Tried to delete a cache entry that is in use."
  else
    write fun s =>
      let eds := u32 (entry_disk_space (i32 entry.size) s.block_size)
      { s with current_size := if s.current_size < eds then 0 else s.current_size - eds }

/-- One round of `for_each` over a slot. The functor says whether it has deleted the entry, and then
    has set the pointer to null. -/
def forEntry (functor : Pointer → Act Bool) (slot i : Nat) : Act Unit := do
  match ← read fun s => (s.cache_table slot)[i]? with
  | some (some e) =>
    let deleted ← functor e
    write fun s =>
      if deleted then { s with cache_table := Function.update s.cache_table slot ((s.cache_table slot).set i none) }
      else s
  | _ => return

/-- `for_each`, and then `erase(remove(...))` with the null pointer. -/
def forSlot (functor : Pointer → Act Bool) (slot : Nat) : Act Unit := do
  let n ← read fun s => (s.cache_table slot).length
  forM (List.range n) (forEntry functor slot)
  write fun s => { s with cache_table := Function.update s.cache_table slot ((s.cache_table slot).filter Option.isSome) }

def forSlots (functor : Pointer → Act Bool) : Act Unit := forM (List.range CACHE_TABLE_SIZE) (forSlot functor)

/-- The functors that delete the entries without readers for which a condition holds. -/
def deleteUnread (condition : CacheEntry → Bool) (e : Pointer) : Act Bool := do
  let entry ← entryAt e
  if entry.readers = 0 ∧ condition entry then do
    remove_cache_entry e
    return true
  else return false

def DeleteExpired (time : Int) : Pointer → Act Bool :=
  deleteUnread fun e => e.freshness_lifetime < e.corrected_initial_age + (time - e.response_time)

def DeleteByHits (hits : Int) : Pointer → Act Bool := deleteUnread fun e => e.hits ≤ hits

def DeleteBySize (size : Nat) : Pointer → Act Bool := deleteUnread fun e => u32 size < e.size

def DeleteCacheEntry (url : Text) (e : Pointer) : Act Bool := do
  let entry ← entryAt e
  if entry.url = url then do
    lock_write_response e
    remove_cache_entry e
    unlock_write_response e
    return true
  else return false

def DeleteUnlockedCacheEntry (e : Pointer) : Act Bool := do
  remove_cache_entry e
  return true

def delete_expired_entries (time : Int) : Act Unit := forSlots (DeleteExpired time)

def delete_by_hits (hits : Int) : Act Unit := forSlots (DeleteByHits hits)

def delete_by_size (size : Nat) : Act Unit := forSlots (DeleteBySize size)

def remove_entry_from_cache_table (url : Text) : Act Unit := forSlot (DeleteCacheEntry url) (get_hash url)

/-- Whether the file was there and could be removed is not looked at. -/
def cache_index_delete (removed : Bool) : Act Unit :=
  write fun s => { s with new_entries := 0, index := if removed then none else s.index }

def delete_all_entries (removed : Bool) : Act Unit := do
  forSlots DeleteUnlockedCacheEntry
  cache_index_delete removed

def bind_entry_to_data (e : Pointer) (body : File) : Act Unit := do
  modifyEntry e fun entry => { entry with hits := entry.hits + 1 }
  write fun s => { s with
    locked_entries := (body, some e) :: s.locked_entries.filter fun bound => bound.1 ≠ body }

/-- Looking for a file that is not in the map puts it there, with a null pointer. -/
def uncouple_entry_from_data (body : File) : Act Unit := do
  match ← read fun s => (s.locked_entries.lookup body).join with
  | none => do
    write fun s => { s with locked_entries := (body, none) :: s.locked_entries.filter fun bound => bound.1 ≠ body }
    throw "There is no cache entry for the response given."
  | some e => do
    write fun s => { s with locked_entries := s.locked_entries.filter fun bound => bound.1 ≠ body }
    unlock_read_response e
    let entry ← entryAt e
    if entry.readers < 0 then throw "An unlocked entry was released" else return

def Cache.is_locked_read_responses (s : Cache) : Bool := !s.locked_entries.isEmpty

end Libdap.Http
