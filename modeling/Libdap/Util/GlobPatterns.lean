import Mathlib.Data.Nat.Bitwise
import Libdap.Util.Glob

/-! # The pattern language of `glob`

The comment above `glob` gives it: `*`, `?`, `[a-z]`, `[^a-z]` and `\x`. A pattern is
read as a list of tokens, and what a set lists is a parameter of what they mean, so that
the language and the code differ in that parameter only.
-/

namespace Libdap.Util

open Wildcards

inductive Token where
  | run
  | any
  /-- What stands between the brackets. -/
  | set (text : List Char)
  | char (ch : Char)
  deriving DecidableEq, Repr

/-- How a pattern is read. The bracket that closes a set is the first after its first character. -/
inductive Reads : List Char → List Token → Prop where
  | nil : Reads [] []
  | run {c ts} (rest : Reads c ts) : Reads ('*' :: c) (.run :: ts)
  | any {c ts} (rest : Reads c ts) : Reads ('?' :: c) (.any :: ts)
  | set {c ts} (ch : Char) (inner : List Char) (closed : ']' ∉ inner) (rest : Reads c ts) :
      Reads ('[' :: ch :: inner ++ ']' :: c) (.set (ch :: inner) :: ts)
  | quoted {c ts} (ch : Char) (rest : Reads c ts) : Reads ('\\' :: ch :: c) (.char ch :: ts)
  | char {c ts} (ch : Char) (plain : ch ∉ ['*', '?', '[', '\\']) (rest : Reads c ts) :
      Reads (ch :: c) (.char ch :: ts)

/-- The characters and ranges of a list. -/
def members : List Char → Char → Bool
  | low :: '-' :: high :: rest, ch => low ≤ ch && ch ≤ high || members rest ch
  | c :: rest, ch => c == ch || members rest ch
  | [], _ => false

/-- What `[text]` stands for. -/
def lists : List Char → Char → Bool
  | '^' :: text, ch => !members text ch
  | text, ch => members text ch

def Token.piece (set : List Char → Char → Bool) : Token → Piece Char
  | .run => .run
  | .any => .one fun _ => true
  | .set text => .one (set text)
  | .char c => .one (c == ·)

/-- `s` is one of the strings that the pattern describes. -/
def Describes (c s : List Char) : Prop := ∃ ts, Reads c ts ∧ Matched (ts.map (Token.piece lists)) s

/-! ## Reading -/

/-- The reading, where there is one. -/
def tokens : List Char → Option (List Token)
  | [] => some []
  | '?' :: c => (tokens c).map (.any :: ·)
  | '[' :: c =>
      match _scan : scanSet c with
      | none => none
      | some (text, rest) => (tokens rest).map (.set text :: ·)
  | '*' :: c => (tokens c).map (.run :: ·)
  | '\\' :: c =>
      match c with
      | [] => none
      | ch :: c => (tokens c).map (.char ch :: ·)
  | ch :: c => (tokens c).map (.char ch :: ·)
termination_by c => c.length
decreasing_by
  all_goals simp only [List.length_cons]
  all_goals first
    | omega
    | exact Nat.lt_succ_of_lt (scanSet_shorter _scan)

theorem upToBracket_of_text {inner : List Char} (closed : ']' ∉ inner) (c : List Char) :
    upToBracket (inner ++ ']' :: c) = some (inner, c) := by
  induction inner with
  | nil => rfl
  | cons ch inner ih =>
      obtain ⟨first, closed⟩ := not_or.mp (List.mem_cons.not.mp closed)
      rw [List.cons_append, upToBracket.eq_3 _ _ (fun eq => first eq.symm), ih closed]
      rfl

theorem tokens_of_reads {c : List Char} {ts : List Token} (reads : Reads c ts) : tokens c = some ts := by
  induction reads with
  | nil => simp [tokens]
  | run rest ih | any rest ih | quoted ch rest ih => simp [tokens, ih]
  | @set c ts ch inner closed rest ih =>
      have scan : scanSet (ch :: inner ++ ']' :: c) = some (ch :: inner, c) := by
        simp [scanSet, upToBracket_of_text closed]
      rw [List.cons_append] at scan ⊢
      rw [List.cons_append, tokens]
      split
      · simp_all
      · simp_all
  | char ch plain rest ih =>
      simp only [List.mem_cons, List.not_mem_nil, or_false, not_or] at plain
      rw [tokens] <;> simp_all

theorem reads_of_tokens {c : List Char} {ts : List Token} (read : tokens c = some ts) : Reads c ts := by
  fun_induction tokens c generalizing ts with
  | case1 =>
      cases read
      exact .nil
  | case2 c ih =>
      obtain ⟨rest, below, rfl⟩ := Option.map_eq_some_iff.mp read
      exact .any (ih below)
  | case3 | case6 => simp at read
  | case4 c text rest scan ih =>
      obtain ⟨ts, below, rfl⟩ := Option.map_eq_some_iff.mp read
      obtain ⟨ch, inner, rfl, rfl, closed⟩ := scanSet_text scan
      exact .set ch inner closed (ih below)
  | case5 c ih =>
      obtain ⟨rest, below, rfl⟩ := Option.map_eq_some_iff.mp read
      exact .run (ih below)
  | case7 ch c ih =>
      obtain ⟨rest, below, rfl⟩ := Option.map_eq_some_iff.mp read
      exact .quoted ch (ih below)
  | case8 ch c any set run quote ih =>
      obtain ⟨rest, below, rfl⟩ := Option.map_eq_some_iff.mp read
      exact .char ch (by grind) (ih below)

theorem reads_iff {c : List Char} {ts : List Token} : Reads c ts ↔ tokens c = some ts :=
  ⟨tokens_of_reads, reads_of_tokens⟩

/-! ## What a bit list holds -/

namespace BitList

@[simp] theorem getLsbD_add (b : BitList) (c i : Nat) (small : i < 128) :
    (b.add c).getLsbD i = (b.getLsbD i || decide (c = i)) := by
  simp only [add, BitVec.getLsbD_or, BitVec.getLsbD_shiftLeft, BitVec.getLsbD_one, small]
  grind

theorem getLsbD_addRange (b : BitList) (low high i : Nat) (small : i < 128) :
    (b.addRange low high).getLsbD i = (b.getLsbD i || decide (low ≤ i ∧ i ≤ high)) := by
  have run : ∀ n b, ((List.range' low n).foldl add b).getLsbD i =
      (BitVec.getLsbD b i || decide (low ≤ i ∧ i < low + n)) := by
    intro n
    induction n with
    | zero =>
        intro b
        simp
    | succ n ih =>
        intro b
        rw [List.range'_concat, List.foldl_append]
        simp only [List.foldl_cons, List.foldl_nil, getLsbD_add _ _ _ small, ih, Nat.one_mul]
        grind
  rw [addRange, run]
  congr 1
  grind

theorem check_add (b : BitList) (c : Char) {ch : Char} (small : ch.toNat < 128) :
    (b.add c.toNat).check ch = (b.check ch || c == ch) := by
  rw [check, getLsbD_add _ _ _ small, check, Bool.beq_eq_decide_eq]
  simp only [Char.toNat_inj]

theorem check_addRange (b : BitList) (low high : Char) {ch : Char} (small : ch.toNat < 128) :
    (b.addRange low.toNat high.toNat).check ch = (b.check ch || (low ≤ ch && ch ≤ high)) := by
  rw [check, getLsbD_addRange _ _ _ _ small, check, Bool.decide_and]
  rfl

theorem check_addAll (b : BitList) (text : List Char) {ch : Char} (small : ch.toNat < 128) :
    (b.addAll text).check ch = (b.check ch || members text ch) := by
  fun_induction addAll b text with
  | case1 b low high rest ih => rw [ih, check_addRange _ _ _ small, members, Bool.or_assoc]
  | case2 b c rest other ih => rw [ih, members.eq_2 _ _ _ other, check_add _ _ small, Bool.or_assoc]
  | case3 b => simp [members]

theorem check_zero (ch : Char) : check 0 ch = false := by simp [check]

theorem check_ofText (text : List Char) {ch : Char} (small : ch.toNat < 128) :
    (ofText text).check ch = lists text ch := by
  fun_cases ofText text with
  | case1 text =>
      have turned : (~~~ addAll 0 text).check ch = !(addAll 0 text).check ch := by
        rw [check, BitVec.getLsbD_not, check, decide_eq_true small, Bool.true_and]
      rw [turned, check_addAll _ _ small, check_zero, Bool.false_or, lists]
  | case2 text other => rw [check_addAll _ _ small, check_zero, Bool.false_or, lists.eq_2 _ _ other]

end BitList

/-- The list holds what the language says, and never the null character. -/
theorem check_globchars (text : List Char) {ch : Char} (pos : 0 < ch.toNat) (small : ch.toNat < 128) :
    (globchars text).check ch = lists text ch := by
  have kept : (~~~ 1#128).getLsbD ch.toNat = true := by
    rw [BitVec.getLsbD_not, BitVec.getLsbD_one]
    simp [small, Nat.ne_of_gt pos]
  rw [BitList.check, globchars, BitVec.getLsbD_and, kept, Bool.and_true]
  exact BitList.check_ofText text small

theorem check_null (text : List Char) : (globchars text).check '\x00' = false := by
  rw [BitList.check, globchars, BitVec.getLsbD_and, BitVec.getLsbD_not, BitVec.getLsbD_one]
  simp

/-! ## The code searches for the pattern -/

/-- What `glob` makes of a set: the closing bracket is in the list. -/
def setTo (text : List Char) (ch : Char) : Bool := (globchars (text ++ [']'])).check ch

/-- The three kinds of results. -/
def outcome (r : Int) : Outcome := if r = 0 then .found else if r < 0 then .leftOver else .failed

theorem outcome_pos {r : Int} (pos : 0 < r) : outcome r = .failed := by
  rw [outcome, if_neg (by omega), if_neg (by omega)]

theorem increment_of_small {i : Int} (pos : 0 ≤ i) (small : i + 1 < 2 ^ 31) : increment i = i + 1 := by
  simp only [increment, CType.convert, if_pos]
  omega

/-- The pattern is short enough for its pieces to be counted after the first `i`. -/
structure Countable (i : Int) (c : List Char) : Prop where
  pos : 0 ≤ i
  small : i + c.length + 1 < 2 ^ 31

theorem Countable.increment {i : Int} {c : List Char} (countable : Countable i c) : increment i = i + 1 := by
  obtain ⟨pos, small⟩ := countable
  exact increment_of_small pos (by omega)

theorem Countable.next {i : Int} {c rest : List Char} (countable : Countable i c)
    (shorter : rest.length < c.length) : Countable (Util.increment i) rest := by
  have eq := countable.increment
  obtain ⟨pos, small⟩ := countable
  constructor <;> omega

theorem Countable.restart {i : Int} {c rest : List Char} (countable : Countable i c)
    (shorter : rest.length < c.length) : Countable 0 rest := by
  obtain ⟨pos, small⟩ := countable
  constructor <;> omega

theorem retry_attempts {call : List Char → Int} {search : List Char → Outcome} {i : Int} (pos : 0 < i)
    {texts : List (List Char)} (same : ∀ s ∈ texts, outcome (call s) = search s) :
    (retry call i texts).map outcome = attempts search texts := by
  induction texts with
  | nil => rfl
  | cons s texts ih =>
      have first := same s (.head _)
      have rest := ih fun t mem => same t (.tail _ mem)
      simp only [outcome] at first
      simp only [retry, attempts]
      split at first
      · rw [← first, if_pos ‹_›]
        rfl
      · split at first
        · rw [← first, if_neg ‹_›, if_pos ‹_›, Option.map_some, outcome_pos pos]
        · rw [← first, if_neg ‹_›, if_neg ‹_›, rest]

theorem retry_none {call : List Char → Int} {i : Int} {texts : List (List Char)}
    (failed : ∀ s ∈ texts, 0 < call s) : retry call i texts = none := by
  induction texts with
  | nil => rfl
  | cons s texts ih =>
      have first := failed s (.head _)
      rw [retry, if_neg (by omega), if_neg (by omega)]
      exact ih fun t mem => failed t (.tail _ mem)

/-- What the loop comes to: a search where the pattern can be read, and a failure where it cannot. -/
structure Comes (c s : List Char) (r : Int) : Prop where
  search : ∀ ts, tokens c = some ts → outcome r = Wildcards.search (ts.map (Token.piece setTo)) s
  failed : tokens c = none → 0 < r

/-- One more piece in front, where the rest of the pattern decides. -/
theorem Comes.piece {c rest s s' : List Char} {r : Int} (below : Comes rest s' r) (t : Token)
    (read : tokens c = (tokens rest).map (t :: ·))
    (step : ∀ ps, Wildcards.search (t.piece setTo :: ps) s = Wildcards.search ps s') : Comes c s r := by
  constructor
  · intro ts whole
    rw [read] at whole
    obtain ⟨ts', inner, eq⟩ := Option.map_eq_some_iff.mp whole
    subst eq
    rw [below.search ts' inner, List.map_cons, step]
  · intro none_
    rw [read] at none_
    exact below.failed (Option.map_eq_none_iff.mp none_)

/-- A piece that fails whatever follows it. -/
theorem Comes.stop {c s : List Char} {r : Int} (pos : 0 < r) (t : Token) (rest : List Char)
    (read : tokens c = (tokens rest).map (t :: ·))
    (step : ∀ ps, Wildcards.search (t.piece setTo :: ps) s = .failed) : Comes c s r := by
  constructor
  · intro ts whole
    rw [read] at whole
    obtain ⟨ts', inner, eq⟩ := Option.map_eq_some_iff.mp whole
    subst eq
    rw [outcome_pos pos, List.map_cons, step]
  · intro none_
    exact pos

theorem Comes.unread {c s : List Char} {r : Int} (pos : 0 < r) (none_ : tokens c = none) : Comes c s r := by
  constructor
  · intro ts whole
    simp [none_] at whole
  · intro none_
    exact pos

/-- A `*` whose calls all come to what they should. -/
theorem Comes.run {c s : List Char} {i : Int} {call : List Char → Int} (pos : 0 < i) {r : Int}
    (calls : ∀ s, Comes c s (call s)) (rest : Comes c s r) :
    Comes ('*' :: c) s ((retry call i (shorter s)).getD r) := by
  have read : tokens ('*' :: c) = (tokens c).map (.run :: ·) := by rw [tokens]
  constructor
  · intro ts whole
    rw [read] at whole
    obtain ⟨ts', inner, eq⟩ := Option.map_eq_some_iff.mp whole
    subst eq
    have same := retry_attempts pos fun t (_ : t ∈ shorter s) => (calls t).search ts' inner
    have last := rest.search ts' inner
    rw [List.map_cons, Token.piece, Wildcards.search, ← same, ← last]
    cases retry call i (shorter s) <;> rfl
  · intro none_
    rw [read] at none_
    have inner := Option.map_eq_none_iff.mp none_
    rw [retry_none fun t _ => (calls t).failed inner]
    exact rest.failed inner

theorem deref_of_ne {s : List Char} {ch : Char} (ne : deref s ≠ ch) (ps : List (Piece Char)) :
    Wildcards.search (.one (ch == ·) :: ps) s = .failed := by
  cases s with
  | nil => rfl
  | cons x s =>
      have ne : ch ≠ x := fun eq => ne eq.symm
      simp [Wildcards.search, ne]

theorem deref_of_eq {s : List Char} {ch : Char} (eq : deref s = ch) (pos : 0 < ch.toNat)
    (ps : List (Piece Char)) :
    Wildcards.search (.one (ch == ·) :: ps) s = Wildcards.search ps s.tail := by
  cases s with
  | nil =>
      subst eq
      exact absurd pos (by decide)
  | cons x s =>
      have eq : ch = x := eq.symm
      simp [Wildcards.search, eq]

theorem setTo_of_check {text : List Char} {s : List Char}
    (check : (globchars (text ++ [']'])).check (deref s) = true) (ps : List (Piece Char)) :
    Wildcards.search (.one (setTo text) :: ps) s = Wildcards.search ps s.tail := by
  cases s with
  | nil => exact absurd check (by simp [deref, check_null])
  | cons x s => exact if_pos check

theorem setTo_of_not_check {text : List Char} {s : List Char}
    (check : ¬ (globchars (text ++ [']'])).check (deref s) = true) (ps : List (Piece Char)) :
    Wildcards.search (.one (setTo text) :: ps) s = .failed := by
  cases s with
  | nil => rfl
  | cons x s => exact if_neg check

theorem tokens_set {c text rest : List Char} (scan : scanSet c = some (text, rest)) :
    tokens ('[' :: c) = (tokens rest).map (.set text :: ·) := by
  rw [tokens]
  split <;> simp_all

theorem tokens_unclosed {c : List Char} (scan : scanSet c = none) : tokens ('[' :: c) = none := by
  rw [tokens]
  split <;> simp_all

theorem Comes.exhausted (s : List Char) : Comes [] s (if s = [] then 0 else -1) := by
  have read : tokens [] = some [] := by rw [tokens]
  constructor
  · intro ts whole
    cases Option.some.inj (read.symm.trans whole)
    cases s <;> rfl
  · intro none_
    simp [read] at none_

theorem Countable.increment_pos {i : Int} {c : List Char} (countable : Countable i c) :
    0 < Util.increment i := by
  have eq := countable.increment
  obtain ⟨pos, -⟩ := countable
  omega

/-- The loop follows the search, piece by piece. -/
theorem globFrom_comes {i : Int} {c s : List Char} (countable : Countable i c)
    (nonNull : ∀ ch ∈ c, 0 < ch.toNat) : Comes c s (globFrom i c s) := by
  fun_induction globFrom i c s with
  | case1 i => exact .exhausted []
  | case2 i s some_ =>
      have ends := Comes.exhausted s
      rwa [if_neg some_] at ends
  | case3 i _ c => exact .stop countable.increment_pos .any c (by rw [tokens]) fun ps => rfl
  | case4 i _ c ch s ih =>
      have below := ih (countable.next (by simp)) fun ch mem => nonNull ch (.tail _ mem)
      exact below.piece .any (by rw [tokens]) fun ps => rfl
  | case5 i s _ c scan => exact .unread countable.increment_pos (tokens_unclosed scan)
  | case6 i s _ c text rest scan check ih =>
      have tail : ∀ ch ∈ rest, 0 < ch.toNat := by
        obtain ⟨ch, inner, -, split, -⟩ := scanSet_text scan
        intro ch mem
        exact nonNull ch (by simp [split, mem])
      have below := ih (countable.next (Nat.lt_succ_of_lt (scanSet_shorter scan))) tail
      exact below.piece (.set text) (tokens_set scan) (setTo_of_check check)
  | case7 i s _ c text rest scan check =>
      exact .stop countable.increment_pos (.set text) rest (tokens_set scan) (setTo_of_not_check check)
  | case8 i s _ c call ihCalls ihRest =>
      have tail : ∀ ch ∈ c, 0 < ch.toNat := fun ch mem => nonNull ch (.tail _ mem)
      have below := ihRest (countable.next (by simp)) tail
      refine .run countable.increment_pos ?_ below
      intro t
      have called := ihCalls t (countable.restart (by simp)) tail
      show Comes c t (if c = [] then (if t = [] then 0 else -1) else globFrom 0 c t)
      split
      · subst c
        exact .exhausted t
      · exact called
  | case9 i s _ => exact .unread countable.increment_pos (by rw [tokens])
  | case10 i s _ c ih =>
      have below := ih (countable.next (by simp only [List.length_cons]; omega)) fun ch mem => nonNull ch (.tail _ (.tail _ mem))
      have pos := nonNull (deref s) (.tail _ (.head _))
      exact below.piece (.char (deref s)) (by rw [tokens]) (deref_of_eq rfl pos)
  | case11 i s _ ch c ne =>
      exact .stop countable.increment_pos (.char ch) c (by rw [tokens]) (deref_of_ne ne)
  | case12 i s _ c any set run quote ih =>
      have below := ih (countable.next (by simp)) fun ch mem => nonNull ch (.tail _ mem)
      exact below.piece (.char (deref s)) (tokens.eq_7 _ _ any set run quote) (deref_of_eq rfl (nonNull _ (.head _)))
  | case13 i s _ ch c any set run quote ne =>
      exact .stop countable.increment_pos (.char ch) c (tokens.eq_7 _ _ any set run quote) (deref_of_ne ne)

/-! ## When the two agree -/

theorem outcome_found_iff {r : Int} : outcome r = .found ↔ r = 0 := by
  rw [outcome]
  grind

/-- What `glob` accepts: the pattern language with the closing bracket in every set. -/
theorem glob_zero_iff {c : List Char} (nonNull : ∀ ch ∈ c, 0 < ch.toNat) (short : c.length + 1 < 2 ^ 31)
    (s : List Char) : glob c s = 0 ↔ ∃ ts, tokens c = some ts ∧ Matched (ts.map (Token.piece setTo)) s := by
  have comes : Comes c s (glob c s) := globFrom_comes ⟨by omega, by omega⟩ nonNull
  cases read : tokens c with
  | none =>
      have pos := comes.failed read
      simp
      omega
  | some ts =>
      rw [← outcome_found_iff, comes.search ts read, search_found_iff]
      simp

/-- The texts between the brackets of a pattern. -/
def sets : List Token → List (List Char)
  | [] => []
  | .set text :: ts => text :: sets ts
  | _ :: ts => sets ts

theorem mem_sets {ts : List Token} {text : List Char} : text ∈ sets ts ↔ .set text ∈ ts := by
  fun_induction sets ts <;> grind

/-- `[text]` stands for no character at all. -/
def Empty (text : List Char) : Prop := ∀ ch, IsSevenBit ch → lists text ch = false

/-- With the closing bracket as one more character, `[text]` stands for the same. -/
def BracketIdle (text : List Char) : Prop := ∀ ch, IsSevenBit ch → lists (text ++ [']']) ch = lists text ch

/-- Every set takes its closing bracket without a change, or the pattern describes nothing either way. -/
def BracketsIdle (ts : List Token) : Prop :=
  (∀ text ∈ sets ts, BracketIdle text) ∨
    (∃ text ∈ sets ts, Empty (text ++ [']'])) ∧ ∃ text ∈ sets ts, Empty text

variable {A : Char → Prop} {f g : List Char → Char → Bool}

theorem agree_iff (ts : List Token) :
    Agree A (ts.map (Token.piece f)) (ts.map (Token.piece g)) ↔
      ∀ text ∈ sets ts, ∀ ch, A ch → f text ch = g text ch := by
  induction ts with
  | nil => simp [sets]
  | cons t ts ih =>
      rw [List.map_cons, List.map_cons, agree_cons, ih]
      cases t with
      | run => simpa [Token.piece, sets] using fun _ => Aligned.run
      | any => simpa [Token.piece, sets] using fun _ => Aligned.one fun ch mem => rfl
      | char c => simpa [Token.piece, sets] using fun _ => Aligned.one fun ch mem => rfl
      | set text =>
          simp only [Token.piece, sets, List.forall_mem_cons]
          refine and_congr_left fun _ => ?_
          constructor
          · intro aligned
            cases aligned with
            | one both => exact both
          · intro both
            exact .one both

/-- Only a set can stand for nothing: the other pieces have a character of the alphabet. -/
theorem hopeless_iff {ts : List Token} (some_ : ∃ ch, A ch) (chars : ∀ ch, .char ch ∈ ts → A ch) :
    Hopeless A (ts.map (Token.piece f)) ↔ ∃ text ∈ sets ts, ∀ ch, A ch → f text ch = false := by
  constructor
  · intro ⟨p, mem, none_⟩
    obtain ⟨t, inside, eq⟩ := List.mem_map.mp mem
    cases t with
    | run => simp [Token.piece] at eq
    | any =>
        obtain ⟨ch, letter⟩ := some_
        cases eq
        exact absurd (none_ ch letter) (by simp)
    | char c =>
        cases eq
        exact absurd (none_ c (chars c inside)) (by simp)
    | set text =>
        cases eq
        exact ⟨text, mem_sets.mpr inside, none_⟩
  · intro ⟨text, mem, none_⟩
    exact ⟨f text, List.mem_map.mpr ⟨.set text, mem_sets.mp mem, rfl⟩, none_⟩

theorem mem_of_reads {c : List Char} {ts : List Token} (reads : Reads c ts) {ch : Char}
    (mem : .char ch ∈ ts) : ch ∈ c := by
  induction reads with
  | nil => simp at mem
  | run rest ih | any rest ih => grind
  | set ch inner closed rest ih => grind
  | quoted ch rest ih | char ch plain rest ih => grind

theorem setTo_eq (text : List Char) {ch : Char} (sevenBit : IsSevenBit ch) :
    setTo text ch = lists (text ++ [']']) ch := check_globchars _ sevenBit.1 sevenBit.2

theorem bracketsIdle_iff {c : List Char} (sevenBit : SevenBit c) {ts : List Token} (reads : Reads c ts) :
    (∀ s, SevenBit s →
        (Matched (ts.map (Token.piece setTo)) s ↔ Matched (ts.map (Token.piece lists)) s)) ↔
      BracketsIdle ts := by
  have shape : SameShape (ts.map (Token.piece setTo)) (ts.map (Token.piece lists)) := by
    clear reads
    induction ts with
    | nil => exact .nil
    | cons t ts ih =>
        refine .cons ?_ ih
        cases t with
        | run => exact .run
        | any | char | set => exact .one trivial
  have some_ : ∃ ch, IsSevenBit ch := ⟨'a', by decide⟩
  have chars : ∀ ch, .char ch ∈ ts → IsSevenBit ch := fun ch mem => sevenBit ch (mem_of_reads reads mem)
  have closed : ∀ text, (∀ ch, IsSevenBit ch → setTo text ch = false) ↔ Empty (text ++ [']']) :=
    fun text => forall₂_congr fun ch inside => by rw [setTo_eq text inside]
  have idle : ∀ text, (∀ ch, IsSevenBit ch → setTo text ch = lists text ch) ↔ BracketIdle text :=
    fun text => forall₂_congr fun ch inside => by rw [setTo_eq text inside]
  refine (same_texts_iff shape).trans ?_
  rw [BracketsIdle, agree_iff, hopeless_iff some_ chars, hopeless_iff some_ chars]
  simp only [closed, idle, Empty]

/-- `glob` accepts what a pattern describes, where that can be read without its closing brackets or where
    it has none to read. -/
theorem glob_describes_iff {c : List Char} (sevenBit : SevenBit c) (short : c.length + 1 < 2 ^ 31) :
    (∀ s, SevenBit s → (glob c s = 0 ↔ Describes c s)) ↔ ∀ ts, Reads c ts → BracketsIdle ts := by
  have accepts := glob_zero_iff (fun ch mem => (sevenBit ch mem).1) short
  constructor
  · intro same ts reads
    refine (bracketsIdle_iff sevenBit reads).mp ?_
    intro s inside
    have here := same s inside
    have read := tokens_of_reads reads
    simpa [accepts, Describes, reads_iff, read] using here
  · intro idle s inside
    rw [accepts]
    simp only [Describes, reads_iff]
    refine exists_congr fun ts => and_congr_right fun read => ?_
    have reads := reads_of_tokens read
    exact (bracketsIdle_iff sevenBit reads).mpr (idle ts reads) s inside

theorem glob_describes_leading_bracket :
    glob ['*', '[', ']', 'x', ']'] ['a', ']'] = 0 ↔ Describes ['*', '[', ']', 'x', ']'] ['a', ']'] := by
  apply (glob_describes_iff (by decide) (by decide)).mpr
  on_goal 2 => decide
  intro ts reads
  have read : tokens ['*', '[', ']', 'x', ']'] = some [.run, .set [']', 'x']] :=
    tokens_of_reads (.run (.set ']' ['x'] (by decide) .nil))
  cases Option.some.inj ((tokens_of_reads reads).symm.trans read)
  refine .inl ?_
  intro text mem ch inside
  cases List.mem_singleton.mp mem
  simp [lists, members]
  grind

theorem glob_takes_closing_bracket :
    ¬ ∀ c s, SevenBit c → SevenBit s → (glob c s = 0 ↔ Describes c s) := by
  intro same
  have read : tokens ['[', 'a', ']'] = some [.set ['a']] := tokens_of_reads (.set 'a' [] (by decide) .nil)
  have found : glob ['[', 'a', ']'] [']'] = 0 := by
    have nonNull : ∀ ch ∈ ['[', 'a', ']'], 0 < ch.toNat := by simp
    refine (glob_zero_iff nonNull (by decide) _).mpr ⟨_, read, ?_⟩
    exact .one (by decide) .nil
  obtain ⟨ts, reads, matched⟩ := (same _ _ (by decide) (by decide)).mp found
  cases Option.some.inj ((tokens_of_reads reads).symm.trans read)
  cases matched with
  | one ok rest => exact absurd ok (by decide)

end Libdap.Util
