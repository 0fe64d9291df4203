import Libdap.Http.Time
import Libdap.Http.IndexRoundTrip
import Libdap.Foundation.Spans
import Mathlib.Tactic.IntervalCases

/-! # Dates in headers

A time is broken down and written in the formats that a date can have in a header. `date_time_str`
writes the one of RFC 1123, and `parse_time` is to read all of them.
-/

namespace Libdap.Http.Time

open Spans Ints Dap4

/-! ## The calendar -/

def leap (year : Nat) : Bool := year % 4 = 0 ∧ (year % 100 ≠ 0 ∨ year % 400 = 0)

/-- The days of a year. Years are counted from 1970. -/
def yearLength (since : Nat) : Nat := if leap (1970 + since) then 366 else 365

/-- The days of a month. -/
def monthLength (since mon : Nat) : Nat :=
  if mon = 1 then if leap (1970 + since) then 29 else 28 else if mon ∈ [3, 5, 8, 10] then 30 else 31

/-- A `struct tm` with the day of the week. -/
structure Date extends Tm where
  tm_wday : Nat
  deriving Repr, DecidableEq

def gmtime (calendar : Nat) : Date :=
  let days := calendar / 86400
  let time := calendar % 86400
  let since := place yearLength days
  let yday := offset yearLength days
  { tm_sec := (time % 60 : Nat)
    tm_min := (time / 60 % 60 : Nat)
    tm_hour := (time / 3600 : Nat)
    tm_mday := (offset (monthLength since) yday + 1 : Nat)
    tm_mon := (place (monthLength since) yday : Nat)
    tm_year := (70 + since : Nat)
    tm_wday := (days + 4) % 7 }

/-- `timegm` for a month of a year from 1970 on. -/
def timegm (tm : Tm) : Int :=
  let since := (tm.tm_year - 70).toNat
  let days := start yearLength since + start (monthLength since) tm.tm_mon.toNat + (tm.tm_mday - 1)
  ((days * 24 + tm.tm_hour) * 60 + tm.tm_min) * 60 + tm.tm_sec

/-! ## The texts -/

def wkdays : List String := ["Sun", "Mon", "Tue", "Wed", "Thu", "Fri", "Sat"]

def weekdays : List String := ["Sunday", "Monday", "Tuesday", "Wednesday", "Thursday", "Friday", "Saturday"]

/-- The name of a day or of a month. -/
def nameAt (names : List String) (i : Nat) : Text := (names[i]?.getD "").toList

/-- A number that is filled up to a width. -/
def padded (pad : Char) (width n : Nat) : Text :=
  List.replicate (width - (Nat.toDigits 10 n).length) pad ++ Nat.toDigits 10 n

/-- `%H:%M:%S` -/
def clockText (tm : Tm) : Text :=
  padded '0' 2 tm.tm_hour.toNat ++ ':' :: (padded '0' 2 tm.tm_min.toNat ++ ':' :: padded '0' 2 tm.tm_sec.toNat)

/-- `date_time_str` in GMT: `%a, %d %b %Y %H:%M:%S GMT`. -/
def date_time_str (calendar : Nat) : Text :=
  let gmt := gmtime calendar
  nameAt wkdays gmt.tm_wday ++ ',' :: ' ' :: (padded '0' 2 gmt.tm_mday.toNat ++ ' ' :: (nameAt months gmt.tm_mon.toNat ++
    ' ' :: (Nat.toDigits 10 (gmt.tm_year + 1900).toNat ++ ' ' :: (clockText gmt.toTm ++ " GMT".toList))))

/-- `%A, %d-%b-%y %H:%M:%S GMT` -/
def rfc850Text (calendar : Nat) : Text :=
  let gmt := gmtime calendar
  nameAt weekdays gmt.tm_wday ++ ',' :: ' ' :: (padded '0' 2 gmt.tm_mday.toNat ++ '-' :: (nameAt months gmt.tm_mon.toNat ++
    '-' :: (padded '0' 2 (gmt.tm_year.toNat % 100) ++ ' ' :: (clockText gmt.toTm ++ " GMT".toList))))

/-- `asctime`, without the end of the line. -/
def asctimeText (calendar : Nat) : Text :=
  let gmt := gmtime calendar
  nameAt wkdays gmt.tm_wday ++ ' ' :: (nameAt months gmt.tm_mon.toNat ++ (padded ' ' 3 gmt.tm_mday.toNat ++
    ' ' :: (clockText gmt.toTm ++ ' ' :: Nat.toDigits 10 (gmt.tm_year + 1900).toNat)))

/-! ## Times and dates -/

theorem yearLength_pos (since : Nat) : 0 < yearLength since := by
  rw [yearLength]
  split <;> decide

theorem monthLength_pos (since mon : Nat) : 0 < monthLength since mon := by
  rw [monthLength]
  split
  · split <;> decide
  · split <;> decide

theorem twelve_months (since : Nat) : start (monthLength since) 12 = yearLength since := by
  simp only [start, monthLength, yearLength]
  cases leap (1970 + since) with
  | false => decide
  | true => decide

/-- Every field is in its range. -/
theorem gmtime_cases (calendar : Nat) : ∃ sec min hour mday mon since : Nat,
    (gmtime calendar).toTm = ⟨sec, min, hour, mday, mon, (70 + since : Nat)⟩ ∧ sec < 60 ∧ min < 60 ∧ hour < 24 ∧
      1 ≤ mday ∧ mday ≤ 31 ∧ mon < 12 ∧ since = place yearLength (calendar / 86400) ∧
      calendar = (((start yearLength since + start (monthLength since) mon + (mday - 1)) * 24 + hour) * 60 + min) * 60 + sec := by
  have inYear := offset_lt yearLength_pos (calendar / 86400)
  rw [← twelve_months] at inYear
  have mon := (place_lt_iff (monthLength_pos _)).mpr inYear
  have mday := offset_lt (monthLength_pos (place yearLength (calendar / 86400))) (offset yearLength (calendar / 86400))
  have most (since mon : Nat) : monthLength since mon ≤ 31 := by
    rw [monthLength]
    split
    · split <;> decide
    · split <;> decide
  have least := most (place yearLength (calendar / 86400))
    (place (monthLength (place yearLength (calendar / 86400))) (offset yearLength (calendar / 86400)))
  have days := start_add_offset yearLength (calendar / 86400)
  have yday := start_add_offset (monthLength (place yearLength (calendar / 86400)))
    (offset yearLength (calendar / 86400))
  refine ⟨_, _, _, _, _, _, rfl, ?_, ?_, ?_, ?_, ?_, mon, rfl, ?_⟩ <;> omega

theorem timegm_gmtime (calendar : Nat) : timegm (gmtime calendar).toTm = calendar := by
  obtain ⟨sec, min, hour, mday, mon, since, fields, -, -, -, least, -, -, -, whole⟩ := gmtime_cases calendar
  have year : ((70 + since : Nat) - 70 : Int).toNat = since := by omega
  rw [fields, timegm]
  simp only [year, Int.toNat_natCast]
  rw [whole]
  push_cast
  omega

/-! ## The scanners -/

/-- What a number ends before. -/
def Ends (rest : Text) : Prop := ∀ c more, rest = c :: more → c.isDigit = false

theorem Ends.cons {c : Char} (other : c.isDigit = false) (rest : Text) : Ends (c :: rest) := by
  intro d more same
  rw [← (List.cons.inj same).1]
  exact other

theorem Ends.nil : Ends [] := by
  intro c more same
  cases same

theorem strtol_digits (blanks : Text) {digits rest : Text} (spaces : ∀ c ∈ blanks, isspace c = true) (some_ : digits ≠ [])
    (all : ∀ c ∈ digits, c.isDigit = true) (ends : Ends rest) (fits : Nat.ofDigitChars 10 digits 0 < 2 ^ 63) :
    strtol (blanks ++ (digits ++ rest)) = (((Nat.ofDigitChars 10 digits 0 : Nat) : Int), rest) := by
  obtain ⟨first, others, rfl⟩ := List.exists_cons_of_ne_nil some_
  have isDigit := all first List.mem_cons_self
  have code : ∀ c : Char, c.isDigit = false → first ≠ c := by
    intro c other same
    rw [← same, isDigit] at other
    cases other
  have plain : isspace first = false := by
    have low := (Char.isDigit_iff_toNat.mp isDigit).1
    have blank := code ' ' (by decide)
    simp only [isspace, Numeral.isspace, blank, decide_false, Bool.false_or, Bool.and_eq_false_iff, decide_eq_false_iff_not]
    right
    have digit : 48 ≤ first.toNat := low
    omega
  have start : (blanks ++ (first :: others ++ rest)).dropWhile isspace = first :: others ++ rest := by
    rw [List.dropWhile_append_of_pos spaces, List.cons_append]
    exact Iss.dropWhile_of_first plain
  have unsigned : Numeral.sign (first :: others ++ rest) = (false, first :: others ++ rest) := by
    rw [List.cons_append]
    unfold Numeral.sign
    split
    next same => exact absurd (List.cons.inj same).1 (code '-' (by decide))
    next same => exact absurd (List.cons.inj same).1 (code '+' (by decide))
    next => rfl
  have taken : (first :: others ++ rest).takeWhile Char.isDigit = first :: others := by
    rw [List.takeWhile_append_of_pos all]
    cases rest with
    | nil => rw [List.takeWhile_nil, List.append_nil]
    | cons c more => rw [List.takeWhile_cons, ends c more rfl, if_neg Bool.false_ne_true, List.append_nil]
  have left : (first :: others ++ rest).dropWhile Char.isDigit = rest := by
    rw [List.dropWhile_append_of_pos all]
    cases rest with
    | nil => rfl
    | cons c more => rw [List.dropWhile_cons, ends c more rfl, if_neg Bool.false_ne_true]
  rw [strtol, start, Iss.numeral, unsigned]
  simp only [taken, left, Bool.false_eq_true, if_false]
  rw [min_eq_right (by omega), max_eq_right (by omega)]

theorem padded_isDigit {width n : Nat} {c : Char} (mem : c ∈ padded '0' width n) : c.isDigit = true := by
  obtain zero | digit := List.mem_append.mp mem
  · rw [List.eq_of_mem_replicate zero]
    rfl
  · exact Nat.isDigit_of_mem_toDigits (by decide) (by decide) digit

theorem ofDigitChars_padded (width n : Nat) : Nat.ofDigitChars 10 (padded '0' width n) 0 = n := by
  rw [padded, Nat.ofDigitChars_append, Nat.ofDigitChars_replicate_zero, Nat.mul_zero, Nat.ofDigitChars_ten_toDigits]

theorem padded_ne_nil (pad : Char) (width n : Nat) : padded pad width n ≠ [] :=
  List.append_ne_nil_of_right_ne_nil _ Nat.toDigits_ne_nil

/-- A number comes back, with or without a blank in front. -/
theorem strtol_padded (width n : Nat) {rest : Text} (ends : Ends rest) (fits : n < 2 ^ 63) :
    strtol (padded '0' width n ++ rest) = ((n : Int), rest) ∧
      strtol (' ' :: (padded '0' width n ++ rest)) = ((n : Int), rest) := by
  have value := ofDigitChars_padded width n
  have fits' : Nat.ofDigitChars 10 (padded '0' width n) 0 < 2 ^ 63 := by omega
  have here := strtol_digits [] (by simp) (padded_ne_nil '0' width n) (fun c => padded_isDigit) ends fits'
  have behind := strtol_digits [' '] (List.forall_mem_singleton.mpr rfl) (padded_ne_nil '0' width n) (fun c => padded_isDigit) ends fits'
  rw [value] at here behind
  exact ⟨here, behind⟩

theorem toNat_of_isAlpha {c : Char} (letter : c.isAlpha = true) : 65 ≤ c.toNat := by
  obtain upper | lower := (Bool.or_eq_true _ _).mp letter
  · exact UInt32.le_iff_toNat_le.mp (of_decide_eq_true upper).1
  · have small : 'a'.toNat ≤ c.toNat := UInt32.le_iff_toNat_le.mp (of_decide_eq_true ((Bool.and_eq_true _ _).mp lower).1)
    exact le_trans (by decide) small

/-- A letter is no number. -/
theorem strtol_letter {c : Char} {s : Text} (letter : c.isAlpha = true) :
    strtol (c :: s) = (0, c :: s) ∧ strtol (' ' :: c :: s) = (0, ' ' :: c :: s) := by
  have code : ∀ d : Char, d.isAlpha = false → c ≠ d := by
    intro d other same
    rw [← same, letter] at other
    cases other
  have high := toNat_of_isAlpha letter
  have plain : isspace c = false := by
    simp only [isspace, Numeral.isspace, code ' ' (by decide), decide_false, Bool.false_or, Bool.and_eq_false_iff,
      decide_eq_false_iff_not]
    omega
  have start : (c :: s).dropWhile isspace = c :: s := Iss.dropWhile_of_first plain
  have unsigned : Numeral.sign (c :: s) = (false, c :: s) := by
    unfold Numeral.sign
    split
    next same => exact absurd (List.cons.inj same).1 (code '-' (by decide))
    next same => exact absurd (List.cons.inj same).1 (code '+' (by decide))
    next => rfl
  have digit : c.isDigit = false := by
    rw [Bool.eq_false_iff]
    intro digit
    have low : c.toNat ≤ 57 := (Char.isDigit_iff_toNat.mp digit).2
    omega
  have none_ : Iss.numeral (c :: s) = (false, [], c :: s) := by
    rw [Iss.numeral, unsigned]
    simp only [List.takeWhile_cons, List.dropWhile_cons, digit, Bool.false_eq_true, if_false]
  have behind : (' ' :: c :: s).dropWhile isspace = c :: s := start
  rw [strtol, start, strtol, behind, none_]
  exact ⟨rfl, rfl⟩

theorem make_month_name {mon : Nat} (inYear : mon < 12) {c : Char} (other : c.isAlpha = false) (rest : Text) :
    make_month (c :: (nameAt months mon ++ rest)) = some ((mon : Int), rest) := by
  have front : (c :: (nameAt months mon ++ rest)).dropWhile (fun ch => !ch.isAlpha) =
      (nameAt months mon ++ rest).dropWhile fun ch => !ch.isAlpha := by
    rw [List.dropWhile_cons, other]
    rfl
  rw [make_month, front]
  interval_cases mon <;> rfl

theorem padded_zero (n : Nat) : padded '0' 0 n = Nat.toDigits 10 n := by
  rw [padded, Nat.zero_sub, List.replicate_zero, List.nil_append]

theorem i32_small {n : Nat} (small : n < 10000) : i32 (n : Int) = n := i32_ofNat_of_lt (by omega)

theorem clock_read {tm : Tm} {hour min sec : Nat} (fields : tm.tm_hour = hour ∧ tm.tm_min = min ∧ tm.tm_sec = sec)
    (small : hour < 10000 ∧ min < 10000 ∧ sec < 10000) {rest : Text} (ends : Ends rest) :
    clock (' ' :: (clockText tm ++ rest)) = some ((hour : Int), (min : Int), (sec : Int), rest) := by
  obtain ⟨isHour, isMin, isSec⟩ := fields
  obtain ⟨hours, mins, secs⟩ := small
  have first := (strtol_padded 2 hour (Ends.cons (c := ':') rfl
    (padded '0' 2 min ++ ':' :: (padded '0' 2 sec ++ rest))) (by omega)).2
  have second := (strtol_padded 2 min (Ends.cons (c := ':') rfl (padded '0' 2 sec ++ rest)) (by omega)).1
  have third := (strtol_padded 2 sec ends (by omega)).1
  have text : clockText tm ++ rest =
      padded '0' 2 hour ++ ':' :: (padded '0' 2 min ++ ':' :: (padded '0' 2 sec ++ rest)) := by
    simp only [clockText, isHour, isMin, isSec, Int.toNat_natCast, List.append_assoc, List.cons_append]
  rw [clock, text, first]
  simp only [advance, Option.bind_eq_bind, Option.bind_some, second, third, i32_small hours, i32_small mins, i32_small secs]
  rfl

/-- The fields of a date, as numbers. -/
structure Fields where
  sec : Nat
  min : Nat
  hour : Nat
  mday : Nat
  mon : Nat
  since : Nat
  secs : sec < 60
  mins : min < 60
  hours : hour < 24
  mdays : 1 ≤ mday ∧ mday ≤ 31
  mons : mon < 12
  years : since < 8030

namespace Fields

variable (f : Fields)

def tm : Tm := ⟨f.sec, f.min, f.hour, f.mday, f.mon, (70 + f.since : Nat)⟩

theorem legal_iff : Tm.legal f.tm = true ↔ f.since ≤ 50 := by
  have ⟨sec, min, hour, mday, mon, since, secs, mins, hours, mdays, mons, years⟩ := f
  rw [Tm.legal, decide_eq_true_iff]
  simp only [tm]
  omega

theorem clock_read (rest : Text) (ends : Ends rest) :
    clock (' ' :: (clockText f.tm ++ rest)) = some ((f.hour : Int), (f.min : Int), (f.sec : Int), rest) := by
  have hours := f.hours
  have mins := f.mins
  have secs := f.secs
  exact Time.clock_read ⟨rfl, rfl, rfl⟩ ⟨by omega, by omega, by omega⟩ ends

/-- The date of RFC 1123 behind the day of the week. -/
def tail1123 : Text := padded '0' 2 f.mday ++ ' ' :: (nameAt months f.mon ++
  ' ' :: (Nat.toDigits 10 (1970 + f.since) ++ ' ' :: (clockText f.tm ++ " GMT".toList)))

/-- The date of RFC 850 behind the day of the week. -/
def tail850 : Text := padded '0' 2 f.mday ++ '-' :: (nameAt months f.mon ++
  '-' :: (padded '0' 2 ((70 + f.since) % 100) ++ ' ' :: (clockText f.tm ++ " GMT".toList)))

/-- What `asctime` writes behind the day of the week and the month. -/
def tailAsctime : Text := padded ' ' 3 f.mday ++ ' ' :: (clockText f.tm ++ ' ' :: Nat.toDigits 10 (1970 + f.since))

theorem rfc1123_read : rfc1123 f.tail1123 = some f.tm := by
  have mdays := f.mdays
  have years := f.years
  have first := (strtol_padded 2 f.mday (Ends.cons (c := ' ') rfl (nameAt months f.mon ++
    ' ' :: (Nat.toDigits 10 (1970 + f.since) ++ ' ' :: (clockText f.tm ++ " GMT".toList)))) (by omega)).1
  have second := make_month_name f.mons (c := ' ') rfl
    (' ' :: (Nat.toDigits 10 (1970 + f.since) ++ ' ' :: (clockText f.tm ++ " GMT".toList)))
  have third := (strtol_padded 0 (1970 + f.since) (Ends.cons (c := ' ') rfl
    (clockText f.tm ++ " GMT".toList)) (by omega)).2
  have fourth := f.clock_read " GMT".toList (Ends.cons rfl _)
  have year : ((1970 + f.since : Nat) : Int) - 1900 = (70 + f.since : Nat) := by omega
  rw [padded_zero] at third
  rw [rfc1123, tail1123, first]
  simp only [second, Option.bind_eq_bind, Option.bind_some, third, fourth]
  rw [year, i32_small (by omega), i32_small (by omega)]
  rfl

theorem rfc850_read (short : f.since < 30) : rfc850 f.tail850 = some f.tm := by
  have mdays := f.mdays
  have first := (strtol_padded 2 f.mday (Ends.cons (c := '-') rfl (nameAt months f.mon ++
    '-' :: (padded '0' 2 (70 + f.since) ++ ' ' :: (clockText f.tm ++ " GMT".toList)))) (by omega)).1
  have second := make_month_name f.mons (c := '-') rfl
    ('-' :: (padded '0' 2 (70 + f.since) ++ ' ' :: (clockText f.tm ++ " GMT".toList)))
  have third := (strtol_padded 2 (70 + f.since) (Ends.cons (c := ' ') rfl
    (clockText f.tm ++ " GMT".toList)) (by omega)).1
  have fourth := f.clock_read " GMT".toList (Ends.cons rfl _)
  have year : (70 + f.since) % 100 = 70 + f.since := Nat.mod_eq_of_lt (by omega)
  rw [rfc850, tail850, year, first]
  simp only [second, Option.bind_eq_bind, Option.bind_some, advance, third, fourth]
  rw [i32_small (by omega), i32_small (by omega)]
  rfl

/-- The day of the week is taken for the month, and nothing else is read. -/
theorem ctime_read {wday : Nat} (inWeek : wday < 7) (mon : Nat) (inYear : mon < 12) (rest : Text) :
    ∃ year, ctime (nameAt wkdays wday ++ ' ' :: (nameAt months mon ++ rest)) = some ⟨0, 0, 0, 0, 0, year⟩ := by
  obtain ⟨a, b, c, letters, name⟩ : ∃ a b c, (a.isAlpha = true ∧ b.isAlpha = true ∧ c.isAlpha = true) ∧
      nameAt months mon = [a, b, c] := by
    interval_cases mon <;> exact ⟨_, _, _, by decide, rfl⟩
  have noMonth : make_month (nameAt wkdays wday ++ ' ' :: (a :: b :: c :: rest)) = some (0, ' ' :: a :: b :: c :: rest) := by
    interval_cases wday <;> rfl
  have first := (strtol_letter (s := b :: c :: rest) letters.1).2
  have second := (strtol_letter (s := b :: c :: rest) letters.1).1
  have third := (strtol_letter (s := c :: rest) letters.2.1).1
  rw [ctime, name]
  simp only [List.cons_append, List.nil_append, noMonth, Option.bind_eq_bind, Option.bind_some, first, clock, advance, second, third]
  exact ⟨_, rfl⟩

end Fields

/-! ## Dates -/

/-- What the names of days and months, and the numbers, are made of. -/
theorem not_mem_nameAt {names : List String} (letters : names.all (fun name => name.toList.all Char.isAlpha) = true)
    {c : Char} (other : c.isAlpha = false) (i : Nat) : c ∉ nameAt names i := by
  intro mem
  rw [nameAt] at mem
  cases found : names[i]? with
  | none =>
      rw [found] at mem
      cases mem
  | some name =>
      rw [found] at mem
      have all := List.all_eq_true.mp letters name (List.mem_of_getElem? found)
      have letter := List.all_eq_true.mp all c mem
      rw [other] at letter
      cases letter

theorem not_mem_padded {c pad : Char} (other : c.isDigit = false) (plain : c ≠ pad) (width n : Nat) :
    c ∉ padded pad width n := by
  intro mem
  obtain blank | digit := List.mem_append.mp mem
  · exact plain (List.eq_of_mem_replicate blank)
  · rw [Nat.isDigit_of_mem_toDigits (by decide) (by decide) digit] at other
    cases other

theorem not_mem_clockText {c : Char} (other : c.isDigit = false) (plain : c ≠ ':' ∧ c ≠ '0') (tm : Tm) :
    c ∉ clockText tm := by
  simp only [clockText, List.mem_append, List.mem_cons, not_or]
  exact ⟨not_mem_padded other plain.2 _ _, plain.1, not_mem_padded other plain.2 _ _, plain.1,
    not_mem_padded other plain.2 _ _⟩

theorem le_length_padded (pad : Char) (width n : Nat) : width ≤ (padded pad width n).length := by
  rw [padded, List.length_append, List.length_replicate]
  omega

theorem le_length_clockText (tm : Tm) : 8 ≤ (clockText tm).length := by
  have hours := le_length_padded '0' 2 tm.tm_hour.toNat
  have mins := le_length_padded '0' 2 tm.tm_min.toNat
  have secs := le_length_padded '0' 2 tm.tm_sec.toNat
  simp only [clockText, List.length_append, List.length_cons]
  omega

section

variable (now : Int) (timegm : Tm → Int) (expand : Bool)

theorem cstr_plain {text : Text} (noNull : '\x00' ∉ text) : cstr text = text := by
  apply List.takeWhile_eq_self_iff.mpr
  intro c mem
  apply decide_eq_true
  intro same
  exact noNull (same ▸ mem)

/-- A date with a comma behind the day. -/
theorem parse_time_comma {day s : Text} (noNull : '\x00' ∉ day ++ ',' :: ' ' :: s) (noComma : ',' ∉ day)
    (other : s.head? ≠ some ' ') : parse_time now timegm expand (day ++ ',' :: ' ' :: s) =
      if '-' ∈ s then date timegm 18 rfc850 s else date timegm 20 rfc1123 s := by
  have front : ∀ ch ∈ day, decide (ch ≠ ',') = true := by
    intro ch mem
    apply decide_eq_true
    intro same
    exact noComma (same ▸ mem)
  have comma : (day ++ ',' :: ' ' :: s).dropWhile (fun ch => decide (ch ≠ ',')) = ',' :: ' ' :: s :=
    List.dropWhile_append_of_pos front
  have blank : (' ' :: s).dropWhile (fun ch => decide (ch = ' ')) = s := by
    rw [List.dropWhile_cons, if_pos (by decide)]
    cases s with
    | nil => rfl
    | cons c s =>
        rw [List.dropWhile_cons, if_neg]
        intro same
        exact other (congrArg some (of_decide_eq_true same))
  rw [parse_time, cstr_plain noNull]
  simp only [comma, blank]

theorem head_padded (width n : Nat) (rest : Text) : (padded '0' width n ++ rest).head? ≠ some ' ' := by
  obtain ⟨c, cs, digits⟩ := List.exists_cons_of_ne_nil (padded_ne_nil '0' width n)
  have digit : c.isDigit = true := padded_isDigit (digits ▸ List.mem_cons_self)
  rw [digits, List.cons_append, List.head?_cons]
  intro same
  rw [Option.some.inj same] at digit
  cases digit

/-- A date without one that starts with a letter. -/
theorem parse_time_letter {s : Text} {c : Char} (noNull : '\x00' ∉ c :: s) (noComma : ',' ∉ c :: s)
    (letter : c.isAlpha = true) : parse_time now timegm expand (c :: s) = date timegm 24 ctime (c :: s) := by
  have high := toNat_of_isAlpha letter
  have comma : (c :: s).dropWhile (fun ch => decide (ch ≠ ',')) = [] := by
    apply List.dropWhile_eq_nil_iff.mpr
    intro ch mem
    apply decide_eq_true
    intro same
    exact noComma (same ▸ mem)
  have digit : c.isDigit = false := by
    rw [Bool.eq_false_iff]
    intro digit
    have low : c.toNat ≤ 57 := (Char.isDigit_iff_toNat.mp digit).2
    omega
  have other : c ≠ ' ' := by
    intro same
    subst same
    cases letter
  have blank : (c :: s).dropWhile (fun ch => decide (ch = ' ')) = c :: s := by
    rw [List.dropWhile_cons, if_neg (by simpa using other)]
  rw [parse_time, cstr_plain noNull]
  simp only [comma, List.head?_cons, Option.elim_some, digit, Bool.false_eq_true, if_false, blank]

theorem not_mem_zone {c : Char} (alpha : c.isAlpha = false) (blank : c ≠ ' ') : c ∉ " GMT".toList := by
  intro mem
  have all : " GMT".toList.all (fun c => c == ' ' || c.isAlpha) = true := rfl
  simpa [alpha, blank] using List.all_eq_true.mp all c mem

namespace Fields

variable (f : Fields)

/-- A character that is in no date. -/
structure Absent (c : Char) : Prop where
  alpha : c.isAlpha = false
  digit : c.isDigit = false
  zero : c ≠ '0'
  blank : c ≠ ' '
  colon : c ≠ ':'

theorem not_mem_tail1123 {c : Char} (absent : Absent c) : c ∉ f.tail1123 := by
  obtain ⟨alpha, digit, zero, blank, colon⟩ := absent
  rw [tail1123, ← padded_zero]
  simp only [List.mem_append, List.mem_cons, not_or]
  exact ⟨not_mem_padded digit zero _ _, blank, not_mem_nameAt (by decide) alpha _, blank, not_mem_padded digit zero _ _,
    blank, not_mem_clockText digit ⟨colon, zero⟩ _, not_mem_zone alpha blank⟩

theorem not_mem_tail850 {c : Char} (absent : Absent c) (dash : c ≠ '-') : c ∉ f.tail850 := by
  obtain ⟨alpha, digit, zero, blank, colon⟩ := absent
  rw [tail850]
  simp only [List.mem_append, List.mem_cons, not_or]
  exact ⟨not_mem_padded digit zero _ _, dash, not_mem_nameAt (by decide) alpha _, dash, not_mem_padded digit zero _ _,
    blank, not_mem_clockText digit ⟨colon, zero⟩ _, not_mem_zone alpha blank⟩

theorem not_mem_tailAsctime {c : Char} (absent : Absent c) : c ∉ f.tailAsctime := by
  obtain ⟨alpha, digit, zero, blank, colon⟩ := absent
  rw [tailAsctime, ← padded_zero]
  simp only [List.mem_append, List.mem_cons, not_or]
  exact ⟨not_mem_padded digit blank _ _, blank, not_mem_clockText digit ⟨colon, zero⟩ _, blank,
    not_mem_padded digit zero _ _⟩

theorem parse_rfc1123 (wday : Nat) : parse_time now timegm expand (nameAt wkdays wday ++ ',' :: ' ' :: f.tail1123) =
    some (if f.since ≤ 50 then timegm f.tm else 0) := by
  have null := f.not_mem_tail1123 (c := '\x00') ⟨rfl, rfl, by decide, by decide, by decide⟩
  have dash := f.not_mem_tail1123 (c := '-') ⟨rfl, rfl, by decide, by decide, by decide⟩
  have day {c : Char} (alpha : c.isAlpha = false) : c ∉ nameAt wkdays wday := not_mem_nameAt (by decide) alpha _
  have noNull : '\x00' ∉ nameAt wkdays wday ++ ',' :: ' ' :: f.tail1123 := by
    simp only [List.mem_append, List.mem_cons, not_or]
    exact ⟨day rfl, by decide, by decide, null⟩
  have long : ¬ f.tail1123.length < 20 := by
    have mday := le_length_padded '0' 2 f.mday
    have year := List.length_pos_of_ne_nil (@Nat.toDigits_ne_nil (1970 + f.since) 10)
    have clock := le_length_clockText f.tm
    have mon : (nameAt months f.mon).length = 3 := by
      have inYear := f.mons
      generalize f.mon = mon at inYear
      interval_cases mon <;> rfl
    have zone : " GMT".toList.length = 4 := rfl
    simp only [tail1123, List.length_append, List.length_cons, mon, zone]
    omega
  rw [parse_time_comma now timegm expand noNull (day rfl) (head_padded _ _ _), if_neg dash, date, if_neg long, rfc1123_read,
    Option.map_some]
  by_cases legal : f.since ≤ 50
  · rw [if_pos legal, if_pos (f.legal_iff.mpr legal)]
  · rw [if_neg legal, if_neg (f.legal_iff.not.mpr legal)]

theorem parse_rfc850 (short : f.since < 30) (wday : Nat) :
    parse_time now timegm expand (nameAt weekdays wday ++ ',' :: ' ' :: f.tail850) = some (timegm f.tm) := by
  have null := f.not_mem_tail850 (c := '\x00') ⟨rfl, rfl, by decide, by decide, by decide⟩ (by decide)
  have dash : '-' ∈ f.tail850 := List.mem_append_right _ List.mem_cons_self
  have day {c : Char} (alpha : c.isAlpha = false) : c ∉ nameAt weekdays wday := not_mem_nameAt (by decide) alpha _
  have noNull : '\x00' ∉ nameAt weekdays wday ++ ',' :: ' ' :: f.tail850 := by
    simp only [List.mem_append, List.mem_cons, not_or]
    exact ⟨day rfl, by decide, by decide, null⟩
  have long : ¬ f.tail850.length < 18 := by
    have mday := le_length_padded '0' 2 f.mday
    have year := le_length_padded '0' 2 ((70 + f.since) % 100)
    have clock := le_length_clockText f.tm
    have zone : " GMT".toList.length = 4 := rfl
    simp only [tail850, List.length_append, List.length_cons, zone]
    omega
  rw [parse_time_comma now timegm expand noNull (day rfl) (head_padded _ _ _), if_pos dash, date, if_neg long,
    f.rfc850_read short, Option.map_some, if_pos (f.legal_iff.mpr (by omega))]

/-- Nothing that `asctime` writes is read. -/
theorem parse_asctime {wday : Nat} (inWeek : wday < 7) :
    parse_time now timegm expand (nameAt wkdays wday ++ ' ' :: (nameAt months f.mon ++ f.tailAsctime)) = some 0 := by
  have day {c : Char} (alpha : c.isAlpha = false) : c ∉ nameAt wkdays wday := not_mem_nameAt (by decide) alpha _
  have mon {c : Char} (alpha : c.isAlpha = false) : c ∉ nameAt months f.mon := not_mem_nameAt (by decide) alpha _
  have absent {c : Char} (absent : Absent c) : c ∉ nameAt wkdays wday ++ ' ' :: (nameAt months f.mon ++ f.tailAsctime) := by
    simp only [List.mem_append, List.mem_cons, not_or]
    exact ⟨day absent.alpha, absent.blank, mon absent.alpha, f.not_mem_tailAsctime absent⟩
  obtain ⟨c, s, letter, text⟩ : ∃ c s, c.isAlpha = true ∧
      nameAt wkdays wday ++ ' ' :: (nameAt months f.mon ++ f.tailAsctime) = c :: s := by
    generalize nameAt months f.mon ++ f.tailAsctime = rest
    interval_cases wday <;> exact ⟨_, _, by decide, rfl⟩
  have noNull := absent (c := '\x00') ⟨rfl, rfl, by decide, by decide, by decide⟩
  have noComma := absent (c := ',') ⟨rfl, rfl, by decide, by decide, by decide⟩
  obtain ⟨year, read⟩ := ctime_read inWeek f.mon f.mons f.tailAsctime
  rw [text] at noNull noComma read ⊢
  rw [parse_time_letter now timegm expand noNull noComma letter, date, read, Option.map_some]
  split
  · rfl
  · have noDay : Tm.legal ⟨0, 0, 0, 0, 0, year⟩ = false := by simp [Tm.legal]
    rw [noDay]
    rfl

end Fields

end

/-! ## The formats -/

theorem fields_of_gmtime (calendar : Nat) (upTo9999 : (gmtime calendar).tm_year ≤ 8099) :
    ∃ f : Fields, (gmtime calendar).toTm = f.tm ∧ f.since = place yearLength (calendar / 86400) ∧
      (calendar = 0 → f.since = 0) := by
  obtain ⟨sec, min, hour, mday, mon, since, fields, secs, mins, hours, least, most, mons, isYear, whole⟩ := gmtime_cases calendar
  have year : (gmtime calendar).tm_year = (70 + since : Nat) := congrArg Tm.tm_year fields
  have zero : calendar = 0 → since = 0 := by
    have passed := le_start yearLength_pos since
    omega
  exact ⟨⟨sec, min, hour, mday, mon, since, secs, mins, hours, ⟨least, most⟩, mons, by omega⟩, fields, isYear, zero⟩

theorem wday_lt (calendar : Nat) : (gmtime calendar).tm_wday < 7 := Nat.mod_lt _ (by decide)

section

variable {calendar : Nat} {f : Fields} (fields : (gmtime calendar).toTm = f.tm)

include fields

theorem date_time_str_eq :
    date_time_str calendar = nameAt wkdays (gmtime calendar).tm_wday ++ ',' :: ' ' :: f.tail1123 := by
  have year : (((70 + f.since : Nat) : Int) + 1900).toNat = 1970 + f.since := by omega
  simp only [date_time_str, fields, Fields.tail1123, Fields.tm, Int.toNat_natCast, year]

theorem rfc850Text_eq : rfc850Text calendar = nameAt weekdays (gmtime calendar).tm_wday ++ ',' :: ' ' :: f.tail850 := by
  simp only [rfc850Text, fields, Fields.tail850, Fields.tm, Int.toNat_natCast]

theorem asctimeText_eq : asctimeText calendar =
    nameAt wkdays (gmtime calendar).tm_wday ++ ' ' :: (nameAt months f.mon ++ f.tailAsctime) := by
  have year : (((70 + f.since : Nat) : Int) + 1900).toNat = 1970 + f.since := by omega
  simp only [asctimeText, fields, Fields.tailAsctime, Fields.tm, Int.toNat_natCast, year]

end

/-- The time that is read from a text. -/
def Reads (now : Int) (expand : Bool) (calendar : Nat) (text : Text) : Prop :=
  parse_time now timegm expand text = some (calendar : Int)

/-- All renderings of a time are read back. That of RFC 1123 is what `date_time_str` gives. -/
def ReadBack (now : Int) (expand : Bool) (calendar : Nat) : Prop :=
  Reads now expand calendar (date_time_str calendar) ∧
    ((gmtime calendar).tm_year < 100 → Reads now expand calendar (rfc850Text calendar)) ∧
    Reads now expand calendar (asctimeText calendar)

theorem reads_date_time_str {calendar : Nat} (upTo9999 : (gmtime calendar).tm_year ≤ 8099) (now : Int) (expand : Bool) :
    Reads now expand calendar (date_time_str calendar) ↔ (gmtime calendar).tm_year ≤ 120 := by
  obtain ⟨f, fields, -, zero⟩ := fields_of_gmtime calendar upTo9999
  have year : (gmtime calendar).tm_year = (70 + f.since : Nat) := congrArg Tm.tm_year fields
  have back : timegm f.tm = calendar := fields ▸ timegm_gmtime calendar
  rw [Reads, date_time_str_eq fields, f.parse_rfc1123, back, year]
  by_cases legal : f.since ≤ 50
  · rw [if_pos legal]
    exact iff_of_true rfl (by omega)
  · rw [if_neg legal]
    refine iff_of_false ?_ (by omega)
    intro same
    have none_ := Option.some.inj same
    omega

theorem reads_rfc850 {calendar : Nat} (short : (gmtime calendar).tm_year < 100) (now : Int) (expand : Bool) :
    Reads now expand calendar (rfc850Text calendar) := by
  obtain ⟨f, fields, -, -⟩ := fields_of_gmtime calendar (by omega)
  have year : (gmtime calendar).tm_year = (70 + f.since : Nat) := congrArg Tm.tm_year fields
  have back : timegm f.tm = calendar := fields ▸ timegm_gmtime calendar
  rw [Reads, rfc850Text_eq fields, f.parse_rfc850 now timegm expand (by omega), back]

theorem reads_asctime {calendar : Nat} (upTo9999 : (gmtime calendar).tm_year ≤ 8099) (now : Int) (expand : Bool) :
    Reads now expand calendar (asctimeText calendar) ↔ calendar = 0 := by
  obtain ⟨f, fields, -, -⟩ := fields_of_gmtime calendar upTo9999
  rw [Reads, asctimeText_eq fields, f.parse_asctime now timegm expand (wday_lt calendar)]
  constructor
  · intro same
    have zero := Option.some.inj same
    omega
  · intro zero
    rw [zero]
    rfl

/-- A date with a comma is read back up to the year 2020, and one of `asctime` only where the time is 0,
which is what is returned for a date that is not read. -/
theorem dates_read_iff (now : Int) (expand : Bool) (calendar : Nat) (upTo9999 : (gmtime calendar).tm_year ≤ 8099) :
    (ReadBack now expand calendar ↔ calendar = 0) ∧
      (Reads now expand calendar (date_time_str calendar) ↔ (gmtime calendar).tm_year ≤ 120) ∧
      ((gmtime calendar).tm_year < 100 → Reads now expand calendar (rfc850Text calendar)) ∧
      (Reads now expand calendar (asctimeText calendar) ↔ calendar = 0) := by
  have dates := reads_date_time_str upTo9999 now expand
  have asctimes := reads_asctime upTo9999 now expand
  refine ⟨?_, dates, fun short => reads_rfc850 short now expand, asctimes⟩
  constructor
  · intro all
    exact asctimes.mp all.2.2
  · intro zero
    obtain ⟨f, fields, -, first⟩ := fields_of_gmtime calendar upTo9999
    have year : (gmtime calendar).tm_year = (70 + f.since : Nat) := congrArg Tm.tm_year fields
    have start := first zero
    exact ⟨dates.mpr (by omega), fun short => reads_rfc850 short now expand, asctimes.mpr zero⟩

/-- The first second of 2021. -/
def year2021 : Nat := 1609459200

theorem tm_year_2021 : (gmtime year2021).tm_year = 121 := by
  have days : year2021 / 86400 = 18628 := rfl
  have starts : start yearLength 51 = 18628 := by decide
  have ends : start yearLength 52 = 18993 := by decide
  have before : place yearLength 18628 < 52 := (place_lt_iff yearLength_pos).mpr (by rw [ends]; decide)
  have behind : ¬ place yearLength 18628 < 51 := by
    intro early
    have passed := (place_lt_iff yearLength_pos).mp early
    omega
  have year : (gmtime year2021).tm_year = (70 + place yearLength (year2021 / 86400) : Nat) := rfl
  rw [year, days]
  omega

theorem dates_read_2021 : ¬ Reads 0 true year2021 (date_time_str year2021) ∧ ¬ Reads 0 true year2021 (asctimeText year2021) := by
  have known := tm_year_2021
  obtain ⟨-, dates, -, asctimes⟩ := dates_read_iff 0 true year2021 (by omega)
  rw [dates, asctimes]
  constructor
  · omega
  · decide

theorem date_2021_not_read : ¬ ∀ (now : Int) (expand : Bool) (calendar : Nat), (gmtime calendar).tm_year ≤ 8099 →
    ReadBack now expand calendar := by
  intro claimed
  have known := tm_year_2021
  have read := (claimed 0 true year2021 (by omega)).1
  rw [reads_date_time_str (by omega)] at read
  omega

end Libdap.Http.Time
