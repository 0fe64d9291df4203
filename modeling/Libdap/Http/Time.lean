import Libdap.Http.CacheIndex
import Mathlib.Data.List.TakeWhile

/-! # Times in headers

`parse_time` reads three formats of dates, and a number of seconds, to which it adds the
time of day unless it is told not to. A read behind the end of the string has no outcome.
-/

namespace Libdap.Http

open Ints Dap4

/-- `struct tm` -/
structure Tm where
  tm_sec : Int
  tm_min : Int
  tm_hour : Int
  tm_mday : Int
  tm_mon : Int
  tm_year : Int
  deriving Repr, DecidableEq

namespace Time

def months : List String := ["Jan", "Feb", "Mar", "Apr", "May", "Jun", "Jul", "Aug", "Sep", "Oct", "Nov", "Dec"]

/-- `strtol` with base 10, and what it leaves. -/
def strtol (s : Text) : Int × Text :=
  match Iss.numeral (s.dropWhile isspace) with
  | (_, [], _) => (0, s)
  | (negative, digits, rest) =>
    let magnitude : Int := Nat.ofDigitChars 10 digits 0
    (max (-2 ^ 63) (min (2 ^ 63 - 1) (if negative then -magnitude else magnitude)), rest)

/-- `atol` -/
def atol (s : Text) : Int := (strtol s).1

/-- One character on, or behind the null. -/
def advance : Text → Option Text
  | [] => none
  | _ :: s => some s

def make_month (s : Text) : Option (Int × Text) := do
  let ptr := s.dropWhile fun ch => !ch.isAlpha
  if ptr = [] then none
  else
    let i := months.findIdx? fun month => (month.toList.map Char.toLower).isPrefixOf (ptr.map Char.toLower)
    let ends ← advance ptr
    let ends ← advance ends
    let ends ← advance ends
    return ((i.getD 0 : Nat), ends)

/-- Hours, minutes and seconds with a character between them. -/
def clock (s : Text) : Option (Int × Int × Int × Text) := do
  let (hour, s) := strtol s
  let s ← advance s
  let (min, s) := strtol s
  let s ← advance s
  let (sec, s) := strtol s
  return (i32 hour, i32 min, i32 sec, s)

/-- Weekday, 00-Mon-00 00:00:00 GMT -/
def rfc850 (s : Text) : Option Tm := do
  let (mday, s) := strtol s
  let (mon, s) ← make_month s
  let s ← advance s
  let (year, s) := strtol s
  let (hour, min, sec, _) ← clock s
  return ⟨sec, min, hour, i32 mday, mon, i32 year⟩

/-- Wkd, 00 Mon 0000 00:00:00 GMT -/
def rfc1123 (s : Text) : Option Tm := do
  let (mday, s) := strtol s
  let (mon, s) ← make_month s
  let (year, s) := strtol s
  let (hour, min, sec, _) ← clock s
  return ⟨sec, min, hour, i32 mday, mon, i32 (year - 1900)⟩

/-- YYYY.MM.DDThh:mmStzWkd -/
def iso (s : Text) : Option Tm := do
  let (year, s) := strtol s
  let s ← advance s
  let (mon, s) := strtol s
  let s ← advance s
  let (mday, s) := strtol s
  let s ← advance s
  let (hour, min, sec, _) ← clock s
  return ⟨sec, min, hour, i32 mday, i32 mon, i32 (year - 1900)⟩

/-- Wkd Mon 00 00:00:00 0000 GMT -/
def ctime (s : Text) : Option Tm := do
  let (mon, s) ← make_month s
  let (mday, s) := strtol s
  let (hour, min, sec, s) ← clock s
  let (year, _) := strtol s
  return ⟨sec, min, hour, i32 mday, mon, i32 (year - 1900)⟩

def Tm.legal (tm : Tm) : Bool :=
  0 ≤ tm.tm_sec ∧ tm.tm_sec ≤ 59 ∧ 0 ≤ tm.tm_min ∧ tm.tm_min ≤ 59 ∧ 0 ≤ tm.tm_hour ∧ tm.tm_hour ≤ 23 ∧
    1 ≤ tm.tm_mday ∧ tm.tm_mday ≤ 31 ∧ 0 ≤ tm.tm_mon ∧ tm.tm_mon ≤ 11 ∧ 70 ≤ tm.tm_year ∧ tm.tm_year ≤ 120

section

-- `time(NULL)`, and what the library makes of a date
variable (now : Int) (timegm : Tm → Int)

/-- A date of at least so many characters. -/
def date (least : Nat) (format : Text → Option Tm) (s : Text) : Option Int :=
  if s.length < least then some 0
  else (format s).map fun tm => if Tm.legal tm then timegm tm else 0

def parse_time (expand : Bool) (value : Text) : Option Int :=
  let str := cstr value
  match str.dropWhile fun ch => ch ≠ ',' with
  | _ :: s =>
    let s := s.dropWhile fun ch => ch = ' '
    if '-' ∈ s then date timegm 18 rfc850 s else date timegm 20 rfc1123 s
  | [] =>
    if str.head?.elim false Char.isDigit then
      if 'T' ∈ str then date timegm 21 iso str
      else some (if expand then now + atol str else atol str)
    else date timegm 24 ctime (str.dropWhile fun ch => ch = ' ')

/-- A number of seconds is taken to be from now on, unless told otherwise. -/
theorem parse_time_delta {digits : Text} (filled : digits ≠ []) (all : digits.all Char.isDigit) :
    parse_time now timegm true digits = some (now + atol digits) := by
  have plain : ∀ ch ∈ digits, ch.isDigit = true := List.all_eq_true.mp all
  have others : ∀ ch : Char, ch.isDigit = false → ch ∉ digits := by
    intro ch other mem
    rw [plain ch mem] at other
    cases other
  have whole : cstr digits = digits :=
    List.takeWhile_eq_self_iff.mpr fun ch mem => decide_eq_true fun same => others _ (by decide) (same ▸ mem)
  have noComma : (digits.dropWhile fun ch => decide (ch ≠ ',')) = [] :=
    List.dropWhile_eq_nil_iff.mpr fun ch mem => decide_eq_true fun same => others _ (by decide) (same ▸ mem)
  have noT : 'T' ∉ digits := others _ (by decide)
  obtain ⟨ch, rest, rfl⟩ := List.exists_cons_of_ne_nil filled
  have first := plain ch List.mem_cons_self
  simp only [parse_time, whole, noComma, List.head?_cons, Option.elim_some, first, noT, ↓reduceIte]

end

end Time

end Libdap.Http
