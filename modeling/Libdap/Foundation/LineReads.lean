import Mathlib.Data.List.Basic

/-! # Reading lines into a buffer

`getline` of a stream stores what stands before a delimiter, which it takes out as well. A
buffer that is full first makes the stream fail, and a stream that has failed delivers nothing
more. `fgets` stores the newline too and leaves what does not fit for the next read.
-/

namespace Libdap

variable {α : Type} [DecidableEq α]

/-- Where a read ended. -/
inductive Stop where
  | delimiter
  | full
  | atEnd
  deriving DecidableEq, Repr

/-- Elements up to a delimiter, at most so many. The end and the delimiter are looked for first. -/
def upTo (delim : α) : Nat → List α → List α × Stop × List α
  | _, [] => ([], .atEnd, [])
  | 0, c :: rest => if c = delim then ([], .delimiter, rest) else ([], .full, c :: rest)
  | n + 1, c :: rest =>
      if c = delim then ([], .delimiter, rest)
      else
        let (line, stop, rest) := upTo delim n rest
        (c :: line, stop, rest)

theorem upTo_delimiter {delim : α} {line : List α} (absent : delim ∉ line) {n : Nat} (fits : line.length ≤ n)
    (rest : List α) : upTo delim n (line ++ delim :: rest) = (line, .delimiter, rest) := by
  induction line generalizing n with
  | nil => cases n <;> simp [upTo]
  | cons c line ih =>
      obtain ⟨other, absent⟩ := List.ne_and_not_mem_of_not_mem_cons absent
      cases n with
      | zero => simp at fits
      | succ n =>
          have inner := ih absent (Nat.le_of_succ_le_succ fits)
          simp [upTo, other.symm, inner]

theorem upTo_full {delim : α} {line : List α} (absent : delim ∉ line) {n : Nat} (long : n < line.length)
    (rest : List α) : upTo delim n (line ++ rest) = (line.take n, .full, line.drop n ++ rest) := by
  induction line generalizing n with
  | nil => simp at long
  | cons c line ih =>
      obtain ⟨other, absent⟩ := List.ne_and_not_mem_of_not_mem_cons absent
      cases n with
      | zero => simp [upTo, other.symm]
      | succ n =>
          have inner := ih absent (Nat.lt_of_succ_lt_succ long)
          simp [upTo, other.symm, inner]

theorem upTo_atEnd {delim : α} {line : List α} (absent : delim ∉ line) {n : Nat} (fits : line.length ≤ n) :
    upTo delim n line = (line, .atEnd, []) := by
  induction line generalizing n with
  | nil => cases n <;> rfl
  | cons c line ih =>
      obtain ⟨other, absent⟩ := List.ne_and_not_mem_of_not_mem_cons absent
      cases n with
      | zero => simp at fits
      | succ n =>
          have inner := ih absent (Nat.le_of_succ_le_succ fits)
          simp [upTo, other.symm, inner]

/-- What is left of a stream, with its end and failure bits. -/
structure LineStream (α : Type) where
  rest : List α
  eof : Bool
  fail : Bool
  deriving DecidableEq, Repr

namespace LineStream

/-- A stream before its first read. -/
def of (input : List α) : LineStream α := ⟨input, false, false⟩

def good (s : LineStream α) : Bool := !s.eof && !s.fail

omit [DecidableEq α] in
@[simp] theorem good_of (input : List α) : (of input).good = true := rfl

/-- A read into a buffer of `size` elements, one of which ends the text. A read of nothing at all fails. -/
def getline (s : LineStream α) (size : Nat) (delim : α) : List α × LineStream α :=
  if s.good then
    match upTo delim (size - 1) s.rest with
    | (line, .delimiter, rest) => (line, ⟨rest, false, false⟩)
    | (line, .full, rest) => (line, ⟨rest, false, true⟩)
    | (line, .atEnd, rest) => (line, ⟨rest, true, line.isEmpty⟩)
  else ([], { s with fail := true })

/-- Pass over elements up to a delimiter and over that, at most so many. -/
def ignore (s : LineStream α) (n : Nat) (delim : α) : LineStream α :=
  if s.good then
    match upTo delim (n - 1) (s.rest.take n) with
    | (_, .delimiter, rest) => ⟨rest ++ s.rest.drop n, false, false⟩
    | _ => ⟨s.rest.drop n, decide (s.rest.length < n), false⟩
  else s

theorem getline_delimiter {delim : α} {line : List α} (absent : delim ∉ line) {size : Nat}
    (fits : line.length ≤ size - 1) (rest : List α) :
    (of (line ++ delim :: rest)).getline size delim = (line, of rest) := by
  rw [getline, if_pos (good_of _), of, upTo_delimiter absent fits]
  rfl

theorem getline_full {delim : α} {line : List α} (absent : delim ∉ line) {size : Nat}
    (long : size - 1 < line.length) (rest : List α) :
    (of (line ++ rest)).getline size delim =
      (line.take (size - 1), ⟨line.drop (size - 1) ++ rest, false, true⟩) := by
  rw [getline, if_pos (good_of _), of, upTo_full absent long]

theorem getline_atEnd {delim : α} {line : List α} (absent : delim ∉ line) {size : Nat}
    (fits : line.length ≤ size - 1) :
    (of line).getline size delim = (line, ⟨[], true, line.isEmpty⟩) := by
  rw [getline, if_pos (good_of _), of, upTo_atEnd absent fits]

theorem getline_of_fail {s : LineStream α} (failed : s.fail = true) (size : Nat) (delim : α) :
    s.getline size delim = ([], s) := by
  obtain ⟨rest, eof, fail⟩ := s
  cases failed
  simp [getline, good]

/-- The delimiter is the next element. -/
theorem ignore_next {delim : α} {n : Nat} (pos : 0 < n) (rest : List α) :
    (of (delim :: rest)).ignore n delim = of rest := by
  obtain ⟨n, rfl⟩ := Nat.exists_eq_succ_of_ne_zero (Nat.ne_of_gt pos)
  cases n <;> simp [ignore, of, good, upTo]

end LineStream

/-! ## `fgets` -/

/-- At most so many elements, up to a newline and with it. The end is met where one more is wanted. -/
def fgets (newline : α) : Nat → List α → List α × List α × Bool
  | 0, rest => ([], rest, false)
  | _ + 1, [] => ([], [], true)
  | n + 1, c :: rest =>
      if c = newline then ([c], rest, false)
      else
        let (line, rest, eof) := fgets newline n rest
        (c :: line, rest, eof)

theorem fgets_line {newline : α} {line : List α} (absent : newline ∉ line) {n : Nat} (fits : line.length < n)
    (rest : List α) : fgets newline n (line ++ newline :: rest) = (line ++ [newline], rest, false) := by
  induction line generalizing n with
  | nil =>
      cases n with
      | zero => simp at fits
      | succ n => simp [fgets]
  | cons c line ih =>
      obtain ⟨other, absent⟩ := List.ne_and_not_mem_of_not_mem_cons absent
      cases n with
      | zero => simp at fits
      | succ n =>
          have inner := ih absent (Nat.lt_of_succ_lt_succ fits)
          simp [fgets, other.symm, inner]

theorem fgets_cut {newline : α} {line : List α} (absent : newline ∉ line) {n : Nat} (long : n ≤ line.length)
    (rest : List α) : fgets newline n (line ++ rest) = (line.take n, line.drop n ++ rest, false) := by
  induction line generalizing n with
  | nil =>
      cases n with
      | zero => simp [fgets]
      | succ n => simp at long
  | cons c line ih =>
      obtain ⟨other, absent⟩ := List.ne_and_not_mem_of_not_mem_cons absent
      cases n with
      | zero => simp [fgets]
      | succ n =>
          have inner := ih absent (Nat.le_of_succ_le_succ long)
          simp [fgets, other.symm, inner]

/-! ## Lines up to an empty one -/

section

variable {σ ε τ : Type} {next : σ → Except ε (List τ × σ)}

/-- Read one line after another until one is empty, if that takes fewer reads than this. -/
def linesUntilEmpty (next : σ → Except ε (List τ × σ)) : Nat → σ → Option (List (List τ) × σ)
  | 0, _ => none
  | n + 1, s =>
      match next s with
      | .error _ => none
      | .ok (line, s') =>
          if line.isEmpty then some ([], s')
          else (linesUntilEmpty next n s').map fun (lines, s) => (line :: lines, s)

/-- Reading from `s` gives these lines and then an empty one, and leaves the stream at `t`. -/
def Delivers (next : σ → Except ε (List τ × σ)) (s : σ) (lines : List (List τ)) (t : σ) : Prop :=
  ∃ n, linesUntilEmpty next n s = some (lines, t)

theorem delivers_nil {s t : σ} (read : next s = .ok ([], t)) {lines : List (List τ)} {u : σ} :
    Delivers next s lines u ↔ lines = [] ∧ u = t := by
  constructor
  · intro ⟨n, all⟩
    cases n with
    | zero => cases all
    | succ n =>
        simp only [linesUntilEmpty, read, List.isEmpty_nil, if_true, Option.some.injEq, Prod.mk.injEq] at all
        exact ⟨all.1.symm, all.2.symm⟩
  · intro ⟨none_, same⟩
    subst none_ same
    exact ⟨1, by simp [linesUntilEmpty, read]⟩

theorem delivers_cons {s s' : σ} {line : List τ} (read : next s = .ok (line, s')) (some_ : line ≠ [])
    {lines : List (List τ)} {t : σ} :
    Delivers next s lines t ↔ ∃ rest, lines = line :: rest ∧ Delivers next s' rest t := by
  have filled : line.isEmpty = false := by simpa using some_
  constructor
  · intro ⟨n, all⟩
    cases n with
    | zero => cases all
    | succ n =>
        simp only [linesUntilEmpty, read, filled, Bool.false_eq_true, if_false, Option.map_eq_some_iff] at all
        obtain ⟨⟨rest, u⟩, inner, eq⟩ := all
        obtain ⟨eq, same⟩ := Prod.mk.inj eq
        subst eq same
        exact ⟨rest, rfl, n, inner⟩
  · intro ⟨rest, eq, n, inner⟩
    subst eq
    exact ⟨n + 1, by simp [linesUntilEmpty, read, filled, inner]⟩

theorem not_delivers_of_error {s : σ} {e : ε} (read : next s = .error e) (lines : List (List τ)) (t : σ) :
    ¬ Delivers next s lines t := by
  intro ⟨n, all⟩
  cases n with
  | zero => cases all
  | succ n => simp [linesUntilEmpty, read] at all

/-- The first line that is delivered is the first that is read. -/
theorem not_delivers_of_ne {s s' : σ} {line first : List τ} (read : next s = .ok (line, s')) (ne : line ≠ first)
    (lines : List (List τ)) (t : σ) : ¬ Delivers next s (first :: lines) t := by
  intro delivers
  by_cases nothing : line = []
  · subst nothing
    cases ((delivers_nil read).mp delivers).1
  · obtain ⟨rest, eq, -⟩ := (delivers_cons read nothing).mp delivers
    exact ne (List.cons.inj eq).1.symm

end

end Libdap
