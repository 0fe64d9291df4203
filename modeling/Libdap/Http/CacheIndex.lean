import Libdap.Http.CacheTable

/-! # The index of the HTTP cache

A line of the index holds the fields of an entry with blanks between them. Lines
are read back as `>>` reads words and numbers from a stream, and as `fgets` cuts
the file. The hash of an entry is what the line says.
-/

namespace Libdap.Http

open Ints Dap4 Program

def isspace (ch : Char) : Bool := Numeral.isspace ch

/-- The string as `c_str` gives it away. -/
def cstr (text : Text) : Text := text.takeWhile fun ch => decide (ch ≠ '\x00')

/-- `%d` and `%ld` -/
def showInt (n : Int) : Text := if n < 0 then '-' :: Nat.toDigits 10 n.natAbs else Nat.toDigits 10 n.natAbs

/-- The `unsigned long` as a `long`. -/
def i64 (n : Nat) : Int := ((n : Int) + 2 ^ 63) % 2 ^ 64 - 2 ^ 63

def showFlag (flag : Bool) : Text := if flag then ['1'] else ['0']

def CACHE_EMPTY_ETAG : Text := "@cache@".toList

/-- `WriteOneCacheEntry` -/
def indexLine (e : CacheEntry) : Text :=
  cstr e.url ++ ' ' :: (cstr e.cachename ++ ' ' :: ((if e.etag = [] then CACHE_EMPTY_ETAG else cstr e.etag) ++
    ' ' :: (showInt e.lm ++ ' ' :: (showInt e.expires ++ ' ' :: (showInt (i64 e.size) ++ ' ' :: (showFlag e.range ++
    ' ' :: (showInt e.hash ++ ' ' :: (showInt e.hits ++ ' ' :: (showInt e.freshness_lifetime ++
    ' ' :: (showInt e.response_time ++ ' ' :: (showInt e.corrected_initial_age ++
    ' ' :: (showFlag e.must_revalidate ++ ['\r', '\n']))))))))))))

/-- An `istringstream`: the characters that are left, and whether an extraction has failed. -/
structure Iss where
  rest : Text
  failed : Bool
  deriving Repr, DecidableEq

namespace Iss

/-- `>>` to a string. What fails leaves the variable as it was. -/
def word (old : Text) (iss : Iss) : Text × Iss :=
  if iss.failed then (old, iss)
  else
    match iss.rest.dropWhile isspace with
    | [] => (old, ⟨[], true⟩)
    | ch :: rest =>
      ((ch :: rest).takeWhile fun ch => !isspace ch, ⟨(ch :: rest).dropWhile fun ch => !isspace ch, false⟩)

/-- The sign and the digits that `>>` takes for a number. -/
def numeral (text : Text) : Bool × Text × Text :=
  let (negative, rest) := Numeral.sign text
  (negative, rest.takeWhile Char.isDigit, rest.dropWhile Char.isDigit)

/-- `>>` to a `long`, or to a type with other bounds. -/
def integer (least greatest : Int) (old : Int) (iss : Iss) : Int × Iss :=
  if iss.failed then (old, iss)
  else
    match iss.rest.dropWhile isspace with
    | [] => (old, ⟨[], true⟩)
    | ch :: rest =>
      match numeral (ch :: rest) with
      | (_, [], rest) => (0, ⟨rest, true⟩)
      | (negative, digits, rest) =>
        let magnitude : Int := Nat.ofDigitChars 10 digits 0
        let value := if negative then -magnitude else magnitude
        if value < least then (least, ⟨rest, true⟩)
        else if greatest < value then (greatest, ⟨rest, true⟩)
        else (value, ⟨rest, false⟩)

def long : Int → Iss → Int × Iss := integer (-2 ^ 63) (2 ^ 63 - 1)

def int : Int → Iss → Int × Iss := integer (-2 ^ 31) (2 ^ 31 - 1)

/-- `>>` to an `unsigned long`, which takes a negative number too. -/
def unsignedLong (old : Nat) (iss : Iss) : Nat × Iss :=
  if iss.failed then (old, iss)
  else
    match iss.rest.dropWhile isspace with
    | [] => (old, ⟨[], true⟩)
    | ch :: rest =>
      match numeral (ch :: rest) with
      | (_, [], rest) => (0, ⟨rest, true⟩)
      | (negative, digits, rest) =>
        let magnitude := Nat.ofDigitChars 10 digits 0
        if 2 ^ 64 ≤ magnitude then (2 ^ 64 - 1, ⟨rest, true⟩)
        else (u64 (if negative then -magnitude else magnitude), ⟨rest, false⟩)

/-- `>>` to a `bool`: 0 or 1. -/
def flag (old : Bool) (iss : Iss) : Bool × Iss :=
  match long (if old then 1 else 0) iss with
  | (value, iss) => (decide (value ≠ 0), ⟨iss.rest, iss.failed || decide (value ≠ 0 ∧ value ≠ 1)⟩)

end Iss

def cache_index_parse_line (line : Text) : CacheEntry :=
  let entry := CacheEntry.empty
  let (url, iss) := Iss.word entry.url ⟨cstr line, false⟩
  let (cachename, iss) := iss.word entry.cachename
  let (etag, iss) := iss.word entry.etag
  let etag := if etag = CACHE_EMPTY_ETAG then [] else etag
  let (lm, iss) := iss.long entry.lm
  let (expires, iss) := iss.long entry.expires
  let (size, iss) := iss.unsignedLong entry.size
  let (range, iss) := iss.flag entry.range
  let (hash, iss) := iss.int entry.hash
  let (hits, iss) := iss.int entry.hits
  let (freshness_lifetime, iss) := iss.long entry.freshness_lifetime
  let (response_time, iss) := iss.long entry.response_time
  let (corrected_initial_age, iss) := iss.long entry.corrected_initial_age
  let (must_revalidate, _) := iss.flag entry.must_revalidate
  { entry with
    url, cachename, etag, lm, expires, size, range, hash, hits, freshness_lifetime, response_time,
    corrected_initial_age, must_revalidate }

/-- The lines that `fgets` with room for 1024 bytes makes of a file, with what has been read of the first. -/
def fgetsLines (line : Text) : Text → List Text
  | [] => if line = [] then [] else [line]
  | ch :: rest =>
    if ch = '\n' ∨ line.length = 1022 then (line ++ [ch]) :: fgetsLines [] rest else fgetsLines (line ++ [ch]) rest

/-- What becomes of the index file when it is to be written. -/
inductive IndexFile where
  | written
  | cannotOpen
  -- a part of the text is in the file
  | broken (left : Text)
  deriving Repr, DecidableEq

/-- The entries in the order of the table. -/
def Cache.residents (s : Cache) : List Pointer :=
  (List.range CACHE_TABLE_SIZE).flatMap fun cnt => (s.cache_table cnt).reduceOption

def Cache.indexText (s : Cache) : Text := s.residents.flatMap fun e => indexLine (s.heap e)

def cache_index_write (file : IndexFile) : Act Unit := do
  match file with
  | .cannotOpen => do
    let root ← read fun s => s.cache_root
    throw ("Cache Index. Can't open " ++ "\x60" ++ String.ofList root ++ ".index' for writing")
  | .broken left => do
    write fun s => { s with index := some left }
    throw "Cache Index. Error writing cache index\n"
  | .written => write fun s => { s with index := some s.indexText, new_entries := 0 }

/-- One round of the loop in `cache_index_read`. -/
def readIndexLine (line : Text) : Act Unit := do
  let e ← newEntry (cache_index_parse_line line)
  add_entry_to_cache_table e

/-- Whether there was an index. -/
def cache_index_read : Act Bool := do
  match ← read fun s => s.index with
  | none => return false
  | some text => do
    forM (fgetsLines [] text) readIndexLine
    write fun s => { s with new_entries := 0 }
    return true

/-- The table before its constructor reads the index. Other threads and entries are gone. -/
def Cache.emptied (s : Cache) : Cache :=
  { s with
    next := 0
    locked := fun _ => false
    cache_table := fun _ => []
    current_size := 0
    new_entries := 0
    locked_entries := [] }

end Libdap.Http
