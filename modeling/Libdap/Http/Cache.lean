import Libdap.Http.CacheIndex

/-! # The calls of the HTTP cache

Every call takes the lock of the interface first. What the operating system does
for a call is given with it: the time, the files that can be opened and written,
and what was read.
-/

namespace Libdap.Http

open Ints Dap4 Program

/-- How the body of a response was written. -/
inductive BodyFile where
  | cannotOpen
  | ioError
  | written (bytes : Nat)
  deriving Repr, DecidableEq

/-- What the system does in a call. -/
structure Io where
  now : Int
  parse_time : Text → Int
  -- why a directory cannot be made
  mkdir : Option String
  mkstemp : Option Text
  body : BodyFile
  -- the metadata for writing: the file, and the headers that get there
  metadataOpens : Bool
  headerWrites : Text → Bool
  -- the metadata for reading
  metadata : Option (List Text)
  openBody : Option File
  indexFile : IndexFile
  indexRemoved : Bool
  -- the rounds after which nobody waits for the garbage collection
  rounds : Nat

def DUMP_FREQUENCY : Nat := 10

def lock_cache_interface : Act Unit := LOCK .d_cache_mutex

def unlock_cache_interface : Act Unit := UNLOCK .d_cache_mutex

namespace Cache

def stopGC (s : Cache) : Bool := u64 (s.current_size + s.folder_size) < u64 ((s.total_size : Int) - s.gc_buffer)

def startGC (s : Cache) : Bool := s.total_size < u64 (s.current_size + s.folder_size)

end Cache

/-- The loop of `hits_gc`, from a number of hits on. -/
def hitsLoop : Nat → Int → Act Unit
  | 0, _ => forever
  | rounds + 1, hits => do
    let stop ← read Cache.stopGC
    if stop then return
    else do
      delete_by_hits hits
      hitsLoop rounds (hits + 1)

def expired_gc (now : Int) : Act Unit := do
  let ignored ← read fun s => s.expire_ignored
  if ignored then return else delete_expired_entries now

def too_big_gc : Act Unit := do
  let start ← read Cache.startGC
  let size ← read fun s => s.max_entry_size
  if start then delete_by_size size else return

def hits_gc (rounds : Nat) : Act Unit := do
  let start ← read Cache.startGC
  if start then hitsLoop rounds 0 else return

def perform_garbage_collection (io : Io) : Act Unit := do
  expired_gc io.now
  too_big_gc
  hits_gc io.rounds

def is_hop_by_hop_header (header : Text) : Bool :=
  ["Connection", "Keep-Alive", "Proxy-Authenticate", "Proxy-Authorization", "Transfer-Encoding", "Upgrade"].any
    (contains header)

/-- One item of no bytes is not written. -/
def writeHeader (io : Io) (header : Text) : Act Unit :=
  if header = [] ∨ io.headerWrites header = false then
    throw ("could not write header: '" ++ String.ofList header ++ "' 0")
  else pure ()

def write_metadata (io : Io) (headers : List Text) : Act Unit :=
  if io.metadataOpens = false then throw "Could not open named cache entry file."
  else forM (headers.filter fun header => !is_hop_by_hop_header header) (writeHeader io)

def read_metadata (io : Io) : Act (List Text) :=
  match io.metadata with
  | none => throw "Could not open named cache entry meta data file."
  | some headers => pure headers

/-- The total is counted with an `int`. -/
def write_body (io : Io) : Act Int :=
  match io.body with
  | .cannotOpen => throw "Could not open named cache entry file."
  | .ioError => throw "I/O error transferring data to the cache."
  | .written bytes => pure (i32 bytes)

def open_body (io : Io) : Act File :=
  match io.openBody with
  | none => throw "Could not open cache file."
  | some src => pure src

def create_hash_directory (io : Io) (hash : Int) : Act Text := do
  let root ← read fun s => s.cache_root
  let path := root ++ showInt hash
  match io.mkdir with
  | some error =>
    throw ("Could not create the directory for the cache at '" ++ String.ofList path ++ "' (" ++ error ++ ").")
  | none => return path

def create_location (io : Io) (e : Pointer) : Act Unit := do
  let entry ← entryAt e
  let _ ← create_hash_directory io entry.hash
  match io.mkstemp with
  | none => throw "The HTTP Cache could not create a file to hold the response; it will not be cached."
  | some name => modifyEntry e fun entry => { entry with cachename := name }

/-- The body and the headers of a new entry, which is then in the table. -/
def fillEntry (io : Io) (e : Pointer) (request_time : Int) (headers : List Text) : Act Unit := do
  let default_expiration ← read fun s => s.default_expiration
  modifyEntry e fun entry => calculate_time entry default_expiration request_time io.now
  create_location io e
  let total ← write_body io
  modifyEntry e fun entry => { entry with size := u64 total }
  write_metadata io headers
  add_entry_to_cache_table e
  unlock_write_response e

/-- After some new entries the cache is collected and the index written. -/
def dump (io : Io) : Act Unit := do
  let many ← read fun s => decide (DUMP_FREQUENCY < s.new_entries)
  if many then do
    let start ← read Cache.startGC
    if start then perform_garbage_collection io else pure ()
    cache_index_write io.indexFile
  else return

/-- The `try` block of `cache_response`: whether the response has been stored. Where it has not, the
    interface is unlocked. -/
def storeResponse (io : Io) (url : Text) (request_time : Int) (headers : List Text) : Act Bool :=
  if !contains url "http:" && !contains url "https:" then do
    unlock_cache_interface
    return false
  else do
    remove_entry_from_cache_table url
    let e ← newEntry (CacheEntry.ofUrl url)
    lock_write_response e
    let max_entry_size ← read fun s => s.max_entry_size
    modifyEntry e fun entry => parse_headers io.parse_time entry max_entry_size headers
    let entry ← entryAt e
    if entry.no_cache then do
      unlock_write_response e
      unlock_cache_interface
      return false
    else do
      -- nothing throws a `ResponseTooBigErr`, and nothing else is caught here
      fillEntry io e request_time headers
      dump io
      return true

def cache_response (io : Io) (url : Text) (request_time : Int) (headers : List Text) : Act Bool := do
  lock_cache_interface
  let stored ← (storeResponse io url request_time headers).onThrow unlock_cache_interface
  if stored then do
    unlock_cache_interface
    return true
  else return false

/-- The name of a header, by which `HeaderLess` orders. -/
def headerName (header : Text) : Text := header.takeWhile fun ch => decide (ch ≠ ':')

/-- `insert` to a set of headers. One with the name of a header that is there is left out. -/
def insertHeader (header : Text) : List Text → List Text
  | [] => [header]
  | other :: rest =>
    if headerName header < headerName other then header :: other :: rest
    else if headerName other < headerName header then other :: insertHeader header rest
    else other :: rest

def mergeHeaders (headers old_headers : List Text) : List Text :=
  ((headers ++ old_headers).foldl (fun merged header => insertHeader header merged) []).reverse

/-- The `try` block of `update_response`, after the entry has been found. -/
def updateEntry (io : Io) (e : Pointer) (request_time : Int) (headers : List Text) : Act Unit := do
  let max_entry_size ← read fun s => s.max_entry_size
  let default_expiration ← read fun s => s.default_expiration
  modifyEntry e fun entry => parse_headers io.parse_time entry max_entry_size headers
  modifyEntry e fun entry => calculate_time entry default_expiration request_time io.now
  let old_headers ← read_metadata io
  write_metadata io (mergeHeaders headers old_headers)
  unlock_write_response e
  unlock_cache_interface

/-- What fails with the entry locked for writing is caught by unlocking it for reading. -/
def update_response (io : Io) (url : Text) (request_time : Int) (headers : List Text) : Act Unit := do
  lock_cache_interface
  match ← get_write_locked_entry_from_cache_table url with
  | none => do
    unlock_cache_interface
    throw ("There is no cache entry for the URL: " ++ String.ofList url)
  | some e =>
    (updateEntry io e request_time headers).onThrow do
      unlock_read_response e
      unlock_cache_interface

/-- The `try` block of `get_cached_response`, after the entry has been found. -/
def handOut (io : Io) (e : Pointer) : Act File := do
  let _ ← read_metadata io
  let body ← open_body io
  bind_entry_to_data e body
  return body

def get_cached_response (io : Io) (url : Text) : Act (Option File) := do
  lock_cache_interface
  match ← get_locked_entry_from_cache_table url with
  | none => do
    unlock_cache_interface
    return none
  | some e => do
    let body ← (handOut io e).onThrow unlock_cache_interface
    unlock_cache_interface
    return some body

def release_cached_response (body : File) : Act Unit := do
  lock_cache_interface
  (uncouple_entry_from_data body).onThrow unlock_cache_interface
  unlock_cache_interface

/-- The `try` block of `purge_cache`. -/
def purge (io : Io) : Act Unit := do
  let inUse ← read Cache.is_locked_read_responses
  if inUse then throw "Attempt to purge the cache with entries in use."
  else delete_all_entries io.indexRemoved

def purge_cache (io : Io) : Act Unit := do
  lock_cache_interface
  (purge io).onThrow unlock_cache_interface
  unlock_cache_interface

end Libdap.Http
