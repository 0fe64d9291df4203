import Libdap.Dap4.Index
import Libdap.Foundation.Ints

/-! # The entries of the HTTP cache

An entry holds what the cache knows about one response. The headers of a response
set the fields that say for how long it may be used, and whether it may be kept
at all.
-/

namespace Libdap.Http

open Ints Dap4

/-- The bytes of a string, each as the character with its code. -/
abbrev Text := List Char

def CACHE_TABLE_SIZE : Nat := 1499

/-- The string ends at a null. -/
def get_hash (url : Text) : Nat :=
  (url.takeWhile fun ch => decide (ch ≠ '\x00')).foldl
    (fun hash ch => (hash * 3 + ch.toNat % 256) % CACHE_TABLE_SIZE) 0

theorem get_hash_lt (url : Text) : get_hash url < CACHE_TABLE_SIZE := by
  have below : ∀ (chars : Text) (hash : Nat), hash < CACHE_TABLE_SIZE →
      chars.foldl (fun hash ch => (hash * 3 + ch.toNat % 256) % CACHE_TABLE_SIZE) hash < CACHE_TABLE_SIZE := by
    intro chars
    induction chars with
    | nil => exact fun hash lt => lt
    | cons ch chars ih => exact fun hash _ => ih _ (Nat.mod_lt _ (by decide))
  exact below _ 0 (by decide)

structure CacheEntry where
  url : Text
  hash : Int
  hits : Int
  cachename : Text
  etag : Text
  lm : Int
  expires : Int
  date : Int
  age : Int
  max_age : Int
  size : Nat
  range : Bool
  freshness_lifetime : Int
  response_time : Int
  corrected_initial_age : Int
  must_revalidate : Bool
  no_cache : Bool
  readers : Int
  deriving Repr, DecidableEq

/-- `CacheEntry()` -/
def CacheEntry.empty : CacheEntry :=
  { url := [], hash := -1, hits := 0, cachename := [], etag := [], lm := -1, expires := -1, date := -1, age := -1,
    max_age := -1, size := 0, range := false, freshness_lifetime := 0, response_time := 0,
    corrected_initial_age := 0, must_revalidate := false, no_cache := false, readers := 0 }

/-- `CacheEntry(u)` -/
def CacheEntry.ofUrl (u : Text) : CacheEntry := { CacheEntry.empty with url := u, hash := get_hash u }

/-- `find`: where a text starts in another for the first time. -/
def find (needle : Text) : Text → Option Nat
  | [] => if needle = [] then some 0 else none
  | ch :: rest => if needle.isPrefixOf (ch :: rest) then some 0 else (find needle rest).map (· + 1)

def contains (text : Text) (needle : String) : Bool := (find needle.toList text).isSome

/-- `strtoul` with base 0. -/
def strtoul (text : Text) : Nat :=
  match Numeral.read text with
  | none => 0
  | some n =>
    if 2 ^ 64 ≤ n.magnitude then 2 ^ 64 - 1 else if n.negative then u64 (-n.magnitude) else n.magnitude

section

-- the conversion of a date, or of a number of seconds
variable (parse_time : Text → Int)

def set_header (max_entry_size : Nat) (entry : CacheEntry) (header : String) (value : Text) : CacheEntry :=
  if header = "ETag" then { entry with etag := value }
  else if header = "Last-Modified" then { entry with lm := parse_time value }
  else if header = "Expires" then { entry with expires := parse_time value }
  else if header = "Date" then { entry with date := parse_time value }
  else if header = "Age" then { entry with age := parse_time value }
  else if header = "Content-Length" then { entry with no_cache := max_entry_size < strtoul value ∨ entry.no_cache }
  else if header = "Cache-Control" then
    if value = "no-cache".toList ∨ value = "no-store".toList then { entry with no_cache := true }
    else if value = "must-revalidate".toList then { entry with must_revalidate := true }
    -- `find("=" + 1)` looks for an empty string and finds it at the start
    else if contains value "max-age" then { entry with max_age := parse_time value }
    else entry
  else entry

/-- A header without a colon is skipped. -/
def parse_header (max_entry_size : Nat) (entry : CacheEntry) (line : Text) : CacheEntry :=
  match find [':'] line with
  | none => entry
  | some colon =>
    -- without a blank behind a colon `npos + 2` is 1
    set_header parse_time max_entry_size entry (String.ofList (line.take colon))
      (line.drop ((find [':', ' '] line).elim 1 (· + 2)))

def parse_headers (entry : CacheEntry) (max_entry_size : Nat) (headers : List Text) : CacheEntry :=
  headers.foldl (parse_header parse_time max_entry_size) entry

end

def LM_EXPIRATION (t : Int) : Int := min (48 * 3600) (i32 (t.tdiv 10))

def calculate_time (entry : CacheEntry) (default_expiration request_time now : Int) : CacheEntry :=
  let apparent_age := max 0 (i32 (now - entry.date))
  let corrected_received_age := max apparent_age entry.age
  let response_delay := now - request_time
  let freshness_lifetime :=
    if 0 ≤ entry.max_age then entry.max_age
    else if 0 ≤ entry.expires then entry.expires - entry.date
    else if 0 ≤ entry.lm then LM_EXPIRATION (entry.date - entry.lm)
    else default_expiration
  { entry with
    response_time := now
    corrected_initial_age := corrected_received_age + response_delay
    freshness_lifetime := max 0 (i32 freshness_lifetime) }

/-- What a change of the times and the headers leaves as it was. -/
structure SameStorage (e e' : CacheEntry) : Prop where
  url : e'.url = e.url
  hash : e'.hash = e.hash
  hits : e'.hits = e.hits
  cachename : e'.cachename = e.cachename
  size : e'.size = e.size
  readers : e'.readers = e.readers

theorem SameStorage.refl (e : CacheEntry) : SameStorage e e := ⟨rfl, rfl, rfl, rfl, rfl, rfl⟩

theorem SameStorage.trans {e e' e'' : CacheEntry} (first : SameStorage e e') (second : SameStorage e' e'') :
    SameStorage e e'' :=
  ⟨second.url.trans first.url, second.hash.trans first.hash, second.hits.trans first.hits,
    second.cachename.trans first.cachename, second.size.trans first.size, second.readers.trans first.readers⟩

theorem SameStorage.ite {c : Prop} [Decidable c] {e a b : CacheEntry} (yes : SameStorage e a) (no : SameStorage e b) :
    SameStorage e (if c then a else b) := by
  split
  · exact yes
  · exact no

theorem set_header_storage (parse_time : Text → Int) (max_entry_size : Nat) (e : CacheEntry) (header : String)
    (value : Text) : SameStorage e (set_header parse_time max_entry_size e header value) := by
  unfold set_header
  repeat' apply SameStorage.ite
  all_goals exact ⟨rfl, rfl, rfl, rfl, rfl, rfl⟩

theorem parse_header_storage (parse_time : Text → Int) (max_entry_size : Nat) (e : CacheEntry) (line : Text) :
    SameStorage e (parse_header parse_time max_entry_size e line) := by
  unfold parse_header
  split
  · exact .refl e
  · exact set_header_storage parse_time max_entry_size e _ _

theorem parse_headers_storage (parse_time : Text → Int) (e : CacheEntry) (max_entry_size : Nat)
    (headers : List Text) : SameStorage e (parse_headers parse_time e max_entry_size headers) := by
  unfold parse_headers
  induction headers generalizing e with
  | nil => exact .refl e
  | cons line headers ih => exact (parse_header_storage parse_time max_entry_size e line).trans (ih _)

theorem calculate_time_storage (e : CacheEntry) (default_expiration request_time now : Int) :
    SameStorage e (calculate_time e default_expiration request_time now) := ⟨rfl, rfl, rfl, rfl, rfl, rfl⟩

end Libdap.Http
