import Libdap.Dap2.Names
import Libdap.Escaping.Quotes
import Libdap.Foundation.Ints

/-! # Attribute values

`escattr` puts backslashes before backslashes and quotes and writes what is not printable as an octal
number. `unescattr` searches for each of the three from the start of the text, as often as there is one.
-/

namespace Libdap.Escaping

open Rewriting Rewriter Ints

def printable : List Char :=
  " ABCDEFGHIJKLMNOPQRSTUVWXYZabcdefghijklmnopqrstuvwxyz0123456789~`!@#$%^&*()_-+=\x7b[\x7d]|\\:;<,>.?/'\"".toList

/-- The number is an `unsigned char`. -/
def octstring (val : Nat) : Text :=
  [Char.ofNat (48 + val % 256 / 64), Char.ofNat (48 + val / 8 % 8), Char.ofNat (48 + val % 8)]

/-- The number that an octal text stands for, as a `char`. A text without digits is taken for 0, also
where the source leaves the value unset. -/
def octCode (s : Text) : Nat :=
  let (negative, digits) := Dap4.Numeral.sign (s.dropWhile Dap4.Numeral.isspace)
  let value := (Dap4.Numeral.digits 8 digits).1.foldl (fun n d => 8 * n + d) 0
  if negative then (256 - value % 256) % 256 else value % 256

def unoctstring (s : Text) : Text := if octCode s = 0 then [] else [Char.ofNat (octCode s)]

def isOctal (c : Char) : Bool := 48 ≤ c.toNat && c.toNat < 56

theorem octstring_isOctal (val : Nat) : (octstring val).all isOctal = true := by
  have mod : octstring val = octstring (val % 256) := by
    unfold octstring
    rw [Nat.mod_mod, show val % 256 / 8 % 8 = val / 8 % 8 by omega, show val % 256 % 8 = val % 8 by omega]
  have all : ((List.range 256).all fun val => (octstring val).all isOctal) = true := by decide +kernel
  rw [mod]
  exact List.all_eq_true.mp all _ (List.mem_range.mpr (Nat.mod_lt _ (by decide)))

theorem mem_printable_of_isOctal {c : Char} (octal : isOctal c = true) : c ∈ printable ∧ c ≠ '\\' ∧ c ≠ '"' := by
  have all : ((List.range 8).all fun d => decide (Char.ofNat (48 + d) ∈ printable) && Char.ofNat (48 + d) != '\\' &&
      Char.ofNat (48 + d) != '"') = true := by decide +kernel
  simp only [isOctal, Bool.and_eq_true, decide_eq_true_eq] at octal
  have one := List.all_eq_true.mp all (c.toNat - 48) (List.mem_range.mpr (by omega))
  rw [show 48 + (c.toNat - 48) = c.toNat by omega, Char.ofNat_toNat] at one
  simpa [and_assoc] using one

/-! ## Escaping -/

def escapeBackslashes : Rewriter Char := each (· == '\\') (fun _ => "\\\\".toList) 2 (fun _ _ _ mem => absurd mem List.not_mem_nil)

theorem octal_printable : ∀ c, decide (c ∉ printable) = true →
    ∀ d ∈ ('\\' :: octstring c.toNat).drop 0, decide (d ∉ printable) = false := by
  intro c _ d mem
  have inside : d ∈ printable := by
    rcases List.mem_cons.mp mem with rfl | digit
    · decide
    · exact (mem_printable_of_isOctal (List.all_eq_true.mp (octstring_isOctal _) d digit)).1
  exact decide_eq_false fun outside => outside inside

/-- The place stays at the backslash, which is printable. -/
def escapeOthers : Rewriter Char := each (fun c => decide (c ∉ printable)) (fun c => '\\' :: octstring c.toNat) 0 octal_printable

def escattr (s : Text) : Text := escapeQuotes.rewrite (escapeOthers.rewrite (escapeBackslashes.rewrite s))

/-- The character needs a backslash. -/
def marked (c : Char) : Bool := c == '\\' || c == '"' || decide (c ∉ printable)

def code (c : Char) : Text := if c = '\\' ∨ c = '"' then ['\\', c] else if c ∈ printable then [c] else '\\' :: octstring c.toNat

theorem escattr_eq (s : Text) : escattr s = s.flatMap code := by
  have one : escapeBackslashes.rewrite s = s.flatMap fun c => if c == '\\' then "\\\\".toList else [c] :=
    rewrite_each (fun _ _ => Nat.le_refl 2) s
  have two (s : Text) : escapeOthers.rewrite s =
      s.flatMap fun c => if decide (c ∉ printable) then '\\' :: octstring c.toNat else [c] :=
    rewrite_each (fun _ _ => Nat.zero_le _) s
  have three (s : Text) : escapeQuotes.rewrite s = s.flatMap fun c => if c == '"' then "\\\"".toList else [c] := escape_eq s
  rw [escattr, one, two, three, List.flatMap_assoc, List.flatMap_assoc]
  congr 1
  funext c
  by_cases backslash : c = '\\'
  · subst backslash
    decide +kernel
  · by_cases quote : c = '"'
    · subst quote
      decide +kernel
    · by_cases inside : c ∈ printable
      · simp [code, backslash, quote, inside]
      · have digits : (octstring c.toNat).flatMap (fun c => if c == '"' then "\\\"".toList else [c]) = octstring c.toNat := by
          have same : ∀ d ∈ octstring c.toNat, (if d == '"' then "\\\"".toList else [d]) = [d] := by
            intro d digit
            have octal := mem_printable_of_isOctal (List.all_eq_true.mp (octstring_isOctal _) d digit)
            rw [if_neg (by simpa using octal.2.2)]
          rw [List.flatMap_congr same, List.flatMap_singleton']
        rw [if_neg (by simpa using backslash), List.flatMap_singleton, if_pos (by simpa using inside), List.flatMap_cons, digits,
          code, if_neg (not_or.mpr ⟨backslash, quote⟩), if_neg inside]
        rfl

/-! ## Taking it back -/

/-- What a search returns, as the `unsigned int` that it is put in. There is no meaning to a text whose
length is -1 as an `int`: there is room for no match at all, and `regexec` is told that there is no end to it. -/
def search (hit : Text → Bool) (s : Text) : Option Nat :=
  let len := i32 s.length
  if len = -1 then none
  else if len < 0 ∨ 32766 < len then some (2 ^ 32 - 1)
  else some ((find hit (s.take len.toNat)).getD (2 ^ 32 - 1))

/-- A turn of one of the loops, if there is one. -/
def unescape (hit : Text → Bool) (count : Nat) (by_ : Text → Nat → Text) (s : Option Text) : Option (Option Text) :=
  s.bind fun s => (search hit s).elim (some none) fun index =>
    if index < s.length then some (some (replace s index count (by_ s index))) else none

def escaped (c : Char) : Text → Bool := ['\\', c].isPrefixOf

def octal : Text → Bool
  | '\\' :: a :: b :: c :: _ => isOctal a && decide (a.toNat < 52) && isOctal b && isOctal c
  | _ => false

def unescapeOctal : Option Text → Option (Option Text) :=
  unescape octal 4 fun s index => unoctstring ((s.drop (u32 (index + 1))).take 3)

/-- The text that is returned, if each of the loops takes fewer turns than this. -/
def unescattr (turns : Nat) (s : Text) : Option (Option Text) :=
  (loop (unescape (escaped '\\') 2 fun _ _ => ['\\']) turns (some s)).bind fun s =>
    (loop (unescape (escaped '"') 2 fun _ _ => ['"']) turns s).bind fun s => loop unescapeOctal turns s

section

variable {hit : Text → Bool} {count : Nat} {by_ : Text → Nat → Text} {s : Text} {turns : Nat}

/-- A short text is searched through. -/
theorem search_short (short : s.length ≤ 32766) : search hit s = some ((find hit s).getD (2 ^ 32 - 1)) := by
  have len : i32 s.length = s.length := i32_ofNat_of_lt (by omega)
  have meaning : ¬(s.length : Int) = -1 := by omega
  have inside : ¬((s.length : Int) < 0 ∨ 32766 < (s.length : Int)) := by omega
  rw [search, len, if_neg meaning, if_neg inside, Int.toNat_natCast, List.take_length]

theorem unescape_of_search {index : Nat} (found : search hit s = some index) : unescape hit count by_ (some s) =
    if index < s.length then some (some (replace s index count (by_ s index))) else none := by
  rw [unescape, Option.bind_some, found, Option.elim_some]

theorem unescape_short (short : s.length ≤ 32766) :
    unescape hit count by_ (some s) = (find hit s).map fun k => some (replace s k count (by_ s k)) := by
  rw [unescape_of_search (search_short short)]
  cases found : find hit s with
  | none =>
      have outside : ¬2 ^ 32 - 1 < s.length := by omega
      rw [Option.getD_none, if_neg outside, Option.map_none]
  | some k => rw [Option.getD_some, if_pos (find_some found).1, Option.map_some]

/-- In a short text, a loop replaces what it finds until there is nothing left to find. -/
theorem loop_short {P : Text → Prop}
    (keeps : ∀ s k, P s → k < s.length → hit (s.drop k) = true → P (replace s k count (by_ s k)) ∧
      (replace s k count (by_ s k)).length < s.length)
    (start : P s) (short : s.length ≤ 32766) {o : Option Text}
    (ends : loop (unescape hit count by_) turns (some s) = some o) :
    ∃ t, o = some t ∧ P t ∧ t.length ≤ s.length ∧ find hit t = none := by
  have kept : ∃ t, o = some t ∧ P t ∧ t.length ≤ s.length := by
    apply loop_invariant _ ⟨s, rfl, start, Nat.le_refl _⟩ ends
    rintro _ o' ⟨u, rfl, holds, less⟩ next
    rw [unescape_short (Nat.le_trans less short)] at next
    obtain ⟨k, found, rfl⟩ := Option.map_eq_some_iff.mp next
    obtain ⟨inside, here⟩ := find_some found
    obtain ⟨holds', less'⟩ := keeps u k holds inside here
    exact ⟨_, rfl, holds', Nat.le_trans (Nat.le_of_lt less') less⟩
  obtain ⟨t, rfl, holds, less⟩ := kept
  have last := turn_of_loop ends
  rw [unescape_short (Nat.le_trans less short)] at last
  exact ⟨t, rfl, holds, less, Option.map_eq_none_iff.mp last⟩

/-- It comes to an end. -/
theorem loop_short_ends
    (smaller : ∀ s k, k < s.length → hit (s.drop k) = true → (replace s k count (by_ s k)).length < s.length)
    (short : s.length ≤ 32766) (enough : s.length < turns) :
    ∃ o, loop (unescape hit count by_) turns (some s) = some o := by
  apply @loop_of_smaller _ (unescape hit count by_) (some s) turns (fun o => ∃ u, o = some u ∧ u.length ≤ 32766)
    (fun o => (o.getD []).length) ⟨s, rfl, short⟩ _ enough
  rintro _ o' ⟨u, rfl, short⟩ next
  rw [unescape_short short] at next
  obtain ⟨k, found, rfl⟩ := Option.map_eq_some_iff.mp next
  obtain ⟨inside, here⟩ := find_some found
  have less := smaller u k inside here
  exact ⟨⟨_, rfl, Nat.le_trans (Nat.le_of_lt less) short⟩, less⟩

/-- A longer text is not searched. -/
theorem unescape_long (long : 32766 < s.length) (fits : s.length < 2 ^ 32) :
    unescape hit count by_ (some s) = if s.length = 2 ^ 32 - 1 then some none else none := by
  have undefined : i32 s.length = -1 ↔ s.length = 2 ^ 32 - 1 := by
    simp only [i32]
    omega
  have outside : i32 s.length < 0 ∨ 32766 < i32 s.length := by
    simp only [i32]
    omega
  by_cases no_meaning : s.length = 2 ^ 32 - 1
  · have found : search hit s = none := by rw [search, if_pos (undefined.mpr no_meaning)]
    rw [unescape, Option.bind_some, found, Option.elim_none, if_pos no_meaning]
  · have found : search hit s = some (2 ^ 32 - 1) := by rw [search, if_neg (undefined.not.mpr no_meaning), if_pos outside]
    have behind : ¬2 ^ 32 - 1 < s.length := by omega
    rw [unescape_of_search found, if_neg behind, if_neg no_meaning]

theorem loop_long (long : 32766 < s.length) (fits : s.length < 2 ^ 32) {t : Text}
    (ends : loop (unescape hit count by_) turns (some s) = some (some t)) : t = s ∧ s.length ≠ 2 ^ 32 - 1 := by
  have turn := @unescape_long hit count by_ s long fits
  cases turns with
  | zero => cases ends
  | succ turns =>
      by_cases no_meaning : s.length = 2 ^ 32 - 1
      · rw [if_pos no_meaning] at turn
        rw [loop_of_some turn] at ends
        cases turns with
        | zero => cases ends
        | succ turns =>
            rw [loop_of_none rfl] at ends
            cases ends
      · rw [if_neg no_meaning] at turn
        rw [loop_of_none turn] at ends
        cases ends
        exact ⟨rfl, no_meaning⟩

theorem search_lt {index : Nat} (found : search hit s = some index) : index < 2 ^ 32 := by
  simp only [search] at found
  split_ifs at found
  · have last : 2 ^ 32 - 1 = index := Option.some.inj found
    omega
  · rw [← Option.some.inj found]
    cases found' : find hit (s.take (i32 s.length).toNat) with
    | none =>
        rw [Option.getD_none]
        omega
    | some k =>
        obtain ⟨inside, -⟩ := find_some found'
        obtain ⟨-, fits⟩ := i32_fits s.length
        rw [List.length_take] at inside
        rw [Option.getD_some]
        omega

/-- A text of this length is taken for an empty one. -/
theorem search_wrapped (wrapped : s.length = 2 ^ 32) : search hit s = some (2 ^ 32 - 1) := by
  have len : i32 s.length = 0 := by
    simp only [i32]
    omega
  rw [search, len]
  rfl

/-- There is always something to replace in a text that is so long that any `unsigned int` is a place in it. -/
theorem loop_endless (c : Char) (endless : 2 ^ 32 ≤ s.length) {t : Text} :
    loop (unescape hit 2 fun _ _ => [c]) turns (some s) ≠ some (some t) := by
  intro ends
  have longer : ∀ u : Text, 2 ^ 32 ≤ u.length → ∀ index, search hit u = some index → index < u.length ∧
      2 ^ 32 ≤ (replace u index 2 [c]).length := by
    intro u endless index found
    have small := search_lt found
    have wrapped : u.length = 2 ^ 32 → index = 2 ^ 32 - 1 := by
      intro wrapped
      rw [search_wrapped wrapped] at found
      exact (Option.some.inj found).symm
    rw [replace, List.length_append, List.length_append, List.length_take, List.length_drop, List.length_singleton]
    omega
  have kept : ∀ u, some t = some u → 2 ^ 32 ≤ u.length := by
    apply @loop_invariant _ _ _ _ _ (fun o => ∀ u, o = some u → 2 ^ 32 ≤ u.length) _ _ ends
    · intro o o' endless next u same
      obtain ⟨v, rfl, next'⟩ := Option.bind_eq_some_iff.mp next
      cases found : search hit v with
      | none =>
          rw [found, Option.elim_none, same] at next'
          cases next'
      | some index =>
          obtain ⟨inside, endless'⟩ := longer v (endless v rfl) index found
          rw [found, Option.elim_some, if_pos inside, same] at next'
          cases next'
          exact endless'
    · intro u same
      cases same
      exact endless
  have last := turn_of_loop ends
  cases found : search hit t with
  | none =>
      rw [unescape, Option.bind_some, found] at last
      cases last
  | some index =>
      rw [unescape_of_search found, if_pos (longer t (kept t rfl) index found).1] at last
      cases last

end

/-! ## What comes back -/

/-- A backslash before the character is left out. -/
def absorb (d : Char) (s : Text) : Text := s.foldr (fun c s => if c = '\\' ∧ s.head? = some d then s else c :: s) []

theorem absorb_cons (d c : Char) (s : Text) :
    absorb d (c :: s) = if c = '\\' ∧ (absorb d s).head? = some d then absorb d s else c :: absorb d s := rfl

theorem absorb_other {d c : Char} (other : c ≠ '\\') (s : Text) : absorb d (c :: s) = c :: absorb d s :=
  if_neg fun both => other both.1

theorem head_absorb (d : Char) (s : Text) : (absorb d (d :: s)).head? = some d := by
  rw [absorb_cons]
  split
  · rename_i both
    exact both.2
  · rfl

theorem absorb_escaped (d : Char) (s : Text) : absorb d ('\\' :: d :: s) = absorb d (d :: s) :=
  (absorb_cons d '\\' (d :: s)).trans (if_pos ⟨rfl, head_absorb d s⟩)

theorem absorb_append (d : Char) {s t : Text} (same : absorb d s = absorb d t) (front : Text) :
    absorb d (front ++ s) = absorb d (front ++ t) := by
  induction front with
  | nil => exact same
  | cons c front ih => rw [List.cons_append, List.cons_append, absorb_cons, absorb_cons, ih]

theorem escaped_cases {d : Char} {s : Text} (here : escaped d s = true) : s = '\\' :: d :: s.drop 2 := by
  obtain ⟨rest, rfl⟩ := List.isPrefixOf_iff_prefix.mp here
  rfl

theorem replace_eq (s : Text) (k count : Nat) (by_ : Text) : replace s k count by_ = s.take k ++ (by_ ++ (s.drop k).drop count) := by
  rw [replace, List.append_assoc, List.drop_drop]

/-- A turn of the loop leaves nothing else out. -/
theorem absorb_replace {d : Char} {s : Text} {k : Nat} (here : escaped d (s.drop k) = true) :
    absorb d (replace s k 2 [d]) = absorb d s := by
  rw [replace_eq, List.singleton_append]
  conv_rhs => rw [← List.take_append_drop k s, escaped_cases here]
  exact absorb_append d (absorb_escaped d _).symm _

theorem absorb_of_find_none {d : Char} {s : Text} (clean : find (escaped d) s = none) : absorb d s = s := by
  induction s with
  | nil => rfl
  | cons c cs ih =>
      rw [find] at clean
      split at clean
      · cases clean
      · rename_i other
        rw [absorb_cons, ih (Option.map_eq_none_iff.mp clean)]
        refine if_neg fun both => other ?_
        obtain ⟨rest, rfl⟩ := List.head?_eq_some_iff.mp both.2
        rw [both.1]
        exact List.isPrefixOf_iff_prefix.mpr (List.prefix_append ['\\', d] rest)

/-- A character that needs a backslash takes away the one before it. -/
def collapse : Text → Text
  | [] => []
  | c :: cs => if c = '\\' ∧ cs.head?.any marked = true then collapse cs else c :: collapse cs

/-- Characters that are not printable are still octal numbers. -/
def encode8 (s : Text) : Text := s.flatMap fun c => if c ∈ printable then [c] else '\\' :: octstring c.toNat

theorem absorb_octstring (d : Char) (val : Nat) (s : Text) : absorb d (octstring val ++ s) = octstring val ++ absorb d s := by
  have passed : ∀ front : Text, front.all isOctal = true → absorb d (front ++ s) = front ++ absorb d s := by
    intro front digits
    induction front with
    | nil => rfl
    | cons c front ih =>
        rw [List.all_cons, Bool.and_eq_true] at digits
        rw [List.cons_append, absorb_other (mem_printable_of_isOctal digits.1).2.1, ih digits.2, List.cons_append]
  exact passed _ (octstring_isOctal val)

theorem absorb_octal {d : Char} (other : isOctal d = false) (val : Nat) (s : Text) :
    absorb d ('\\' :: (octstring val ++ s)) = '\\' :: (octstring val ++ absorb d s) := by
  have digit : (octstring val ++ absorb d s).head? ≠ some d := by
    intro first
    have octal := List.all_eq_true.mp (octstring_isOctal val) d (by rw [← Option.some.inj first]; exact List.mem_cons_self)
    rw [other] at octal
    cases octal
  rw [absorb_cons, absorb_octstring]
  exact if_neg fun both => digit both.2

theorem encode8_cons (c : Char) (cs : Text) :
    encode8 (c :: cs) = (if c ∈ printable then [c] else '\\' :: octstring c.toNat) ++ encode8 cs := List.flatMap_cons

/-- What the first two loops leave. -/
theorem absorb_escattr (s : Text) : absorb '"' (absorb '\\' (escattr s)) = encode8 (collapse s) ∧
    ((absorb '\\' (escattr s)).head? = some '\\' ↔ s.head?.any marked = true) ∧
    ((absorb '"' (absorb '\\' (escattr s))).head? = some '"' → s.head?.any marked = true) := by
  rw [escattr_eq]
  induction s with
  | nil => decide
  | cons c cs ih =>
      obtain ⟨whole, backslash, quote⟩ := ih
      rw [List.flatMap_cons, code]
      by_cases here : c = '\\'
      · subst here
        have one : absorb '\\' (['\\', '\\'] ++ cs.flatMap code) = absorb '\\' ('\\' :: cs.flatMap code) :=
          absorb_escaped '\\' _
        have mark : ('\\' :: cs).head?.any marked = true := rfl
        rw [if_pos (.inl rfl), one]
        refine ⟨?_, iff_of_true (head_absorb _ _) mark, fun _ => mark⟩
        by_cases next : cs.head?.any marked = true
        · rw [absorb_cons, if_pos ⟨rfl, backslash.mpr next⟩, collapse, if_pos ⟨rfl, next⟩, whole]
        · have miss : ¬('\\' = '\\' ∧ (absorb '"' (absorb '\\' (cs.flatMap code))).head? = some '"') :=
            fun both => next (quote both.2)
          rw [absorb_cons, if_neg fun both => next (backslash.mp both.2), absorb_cons, if_neg miss, whole, collapse,
            if_neg fun both => next both.2, encode8_cons, if_pos (by decide), List.singleton_append]
      · have kept : collapse (c :: cs) = c :: collapse cs := by
          rw [collapse]
          exact if_neg fun both => here both.1
        rw [kept]
        by_cases quoted : c = '"'
        · subst quoted
          have one : absorb '\\' (['\\', '"'] ++ cs.flatMap code) = '\\' :: '"' :: absorb '\\' (cs.flatMap code) := by
            rw [List.cons_append, List.singleton_append, absorb_cons, absorb_other (by decide)]
            exact if_neg fun both => absurd (Option.some.inj both.2) (by decide)
          have mark : ('"' :: cs).head?.any marked = true := rfl
          rw [if_pos (.inr rfl), one, absorb_escaped, absorb_other (by decide), whole, encode8_cons, if_pos (by decide)]
          exact ⟨rfl, iff_of_true rfl mark, fun _ => mark⟩
        · rw [if_neg (not_or.mpr ⟨here, quoted⟩), encode8_cons]
          by_cases inside : c ∈ printable
          · have plain : (c :: cs).head?.any marked = false := by simp [marked, here, quoted, inside]
            rw [if_pos inside, List.singleton_append, absorb_other here, absorb_other here, whole, plain]
            exact ⟨rfl, iff_of_false (fun same => here (Option.some.inj same)) Bool.false_ne_true,
              fun same => absurd (Option.some.inj same) quoted⟩
          · have mark : (c :: cs).head?.any marked = true := by simp [marked, inside]
            rw [if_neg inside, List.cons_append, absorb_octal (by decide), absorb_octal (by decide), whole]
            exact ⟨rfl, iff_of_true rfl mark, fun _ => mark⟩

/-- Nothing is left out of a text in which no backslash stands before a character that needs one. -/
theorem length_collapse_le (s : Text) : (collapse s).length ≤ s.length := by
  fun_induction collapse s with
  | case1 => exact Nat.le_refl _
  | case2 c cs marks ih => exact Nat.le_succ_of_le ih
  | case3 c cs other ih => exact Nat.succ_le_succ ih

theorem collapse_eq_self_iff (s : Text) :
    (collapse s).length = s.length ↔ ∀ t, '\\' :: t <:+ s → t.head?.any marked = false := by
  fun_induction collapse s with
  | case1 => exact iff_of_true rfl fun t suffix => absurd (List.suffix_nil.mp suffix) (List.cons_ne_nil _ _)
  | case2 c cs marks ih =>
      have less := length_collapse_le cs
      refine iff_of_false (by rw [List.length_cons]; omega) fun all => ?_
      rw [marks.1] at all
      rw [all cs (List.suffix_refl _)] at marks
      exact Bool.false_ne_true marks.2
  | case3 c cs other ih =>
      rw [List.length_cons, List.length_cons, Nat.add_right_cancel_iff, ih]
      constructor
      · intro all t suffix
        rcases List.suffix_cons_iff.mp suffix with same | behind
        · obtain ⟨rfl, rfl⟩ := List.cons.inj same
          exact Bool.eq_false_iff.mpr fun marks => other ⟨rfl, marks⟩
        · exact all t behind
      · intro all t behind
        exact all t (behind.trans (List.suffix_cons c cs))

/-- A text in which some characters are still octal numbers. -/
inductive Stands : Text → Text → Prop
  | nil : Stands [] []
  | plain (c : Char) {u t : Text} : Stands u t → Stands (c :: u) (c :: t)
  | octal {c : Char} (byte : c.toNat < 256 ∧ c.toNat ≠ 0) {u t : Text} :
      Stands u t → Stands ('\\' :: (octstring c.toNat ++ u)) (c :: t)

theorem unoctstring_octstring : ∀ val < 256, val ≠ 0 → unoctstring (octstring val) = [Char.ofNat val] := by
  have all : ((List.range 256).all fun val => val == 0 || unoctstring (octstring val) == [Char.ofNat val]) = true := by
    decide +kernel
  intro val byte some_
  have one := List.all_eq_true.mp all val (List.mem_range.mpr byte)
  simpa [some_] using one

theorem length_unoctstring (s : Text) : (unoctstring s).length ≤ 1 := by
  unfold unoctstring
  split
  · exact Nat.zero_le 1
  · exact Nat.le_refl 1

theorem octal_octstring : ∀ val < 256, ∀ u : Text, octal ('\\' :: (octstring val ++ u)) = true := by
  have all : ((List.range 256).all fun val => octal ('\\' :: octstring val)) = true := by decide +kernel
  intro val byte u
  exact List.all_eq_true.mp all val (List.mem_range.mpr byte)

theorem octal_cases {s : Text} (here : octal s = true) :
    ∃ a b c rest, s = '\\' :: a :: b :: c :: rest ∧ isOctal a = true ∧ isOctal b = true ∧ isOctal c = true := by
  unfold octal at here
  split at here
  · rename_i a b c rest
    simp only [Bool.and_eq_true] at here
    exact ⟨a, b, c, rest, rfl, here.1.1.1, here.1.2, here.2⟩
  · cases here

theorem octal_head {c : Char} {cs : Text} (here : octal (c :: cs) = true) : c = '\\' := by
  obtain ⟨a, b, d, rest, whole, -⟩ := octal_cases here
  exact (List.cons.inj whole).1

namespace Stands

theorem encode8 {s : Text} (bytes : Dap2.Bytes s) : Stands (encode8 s) s := by
  induction s with
  | nil => exact .nil
  | cons c cs ih =>
      obtain ⟨byte, others⟩ := List.forall_mem_cons.mp bytes
      rw [encode8_cons]
      by_cases inside : c ∈ printable
      · rw [if_pos inside, List.singleton_append]
        exact .plain c (ih others)
      · rw [if_neg inside, List.cons_append]
        exact .octal byte (ih others)

theorem append (front : Text) {u t : Text} (stands : Stands u t) : Stands (front ++ u) (front ++ t) := by
  induction front with
  | nil => exact stands
  | cons c front ih => exact .plain c ih

theorem plain_inv {d : Char} {u t : Text} (stands : Stands (d :: u) t) (other : d ≠ '\\') : ∃ t', t = d :: t' ∧ Stands u t' := by
  cases stands with
  | plain _ rest => exact ⟨_, rfl, rest⟩
  | octal byte rest => exact absurd rfl other

/-- Octal numbers are taken for what they stand for, those of the text itself too. -/
theorem replace {s t : Text} (stands : Stands s t) {k : Nat} (here : Escaping.octal (s.drop k) = true) :
    Stands (Rewriting.replace s k 4 (unoctstring ((s.drop (k + 1)).take 3))) t ∨
      ∃ t', Stands (Rewriting.replace s k 4 (unoctstring ((s.drop (k + 1)).take 3))) t' ∧ t'.length < t.length ∧
        ∃ v, v <:+ t ∧ Escaping.octal v = true := by
  induction stands generalizing k with
  | nil =>
      rw [List.drop_nil] at here
      cases here
  | @plain c u t rest ih =>
      cases k with
      | zero =>
          obtain ⟨a, b, d, u', whole, one, two, three⟩ := octal_cases here
          obtain ⟨rfl, rfl⟩ := List.cons.inj whole
          obtain ⟨_, rfl, behind⟩ := plain_inv rest (mem_printable_of_isOctal one).2.1
          obtain ⟨_, rfl, behind'⟩ := plain_inv behind (mem_printable_of_isOctal two).2.1
          obtain ⟨t', rfl, behind''⟩ := plain_inv behind' (mem_printable_of_isOctal three).2.1
          have short := length_unoctstring [a, b, d]
          refine .inr ⟨unoctstring [a, b, d] ++ t', append _ behind'', ?_, _, List.suffix_refl _, here⟩
          rw [List.length_append]
          simp only [List.length_cons]
          omega
      | succ k =>
          rcases ih here with same | ⟨t', stands, less, v, suffix, octal⟩
          · exact .inl (.plain c same)
          · exact .inr ⟨c :: t', .plain c stands, Nat.succ_lt_succ less, v, suffix.trans (List.suffix_cons c t), octal⟩
  | @octal c byte u t rest ih =>
      have digits := List.all_eq_true.mp (octstring_isOctal c.toNat)
      rcases k with _ | _ | _ | _ | k
      · left
        have decoded := unoctstring_octstring c.toNat byte.1 byte.2
        rw [Char.ofNat_toNat] at decoded
        change Stands (unoctstring (octstring c.toNat) ++ u) (c :: t)
        rw [decoded]
        exact .plain c rest
      · exact absurd (octal_head here) (mem_printable_of_isOctal (digits _ List.mem_cons_self)).2.1
      · exact absurd (octal_head here) (mem_printable_of_isOctal (digits _ (List.mem_cons_of_mem _ List.mem_cons_self))).2.1
      · exact absurd (octal_head here)
          (mem_printable_of_isOctal (digits _ (List.mem_cons_of_mem _ (List.mem_cons_of_mem _ List.mem_cons_self)))).2.1
      · rcases ih here with same | ⟨t', stands, less, v, suffix, octal⟩
        · exact .inl (.octal byte same)
        · exact .inr ⟨c :: t', .octal byte stands, Nat.succ_lt_succ less, v, suffix.trans (List.suffix_cons c t), octal⟩

/-- Without an octal number nothing stands for anything else. -/
theorem eq_of_find_none {u t : Text} (stands : Stands u t) (clean : find Escaping.octal u = none) : u = t := by
  induction stands with
  | nil => rfl
  | plain c rest ih =>
      rw [find] at clean
      split at clean
      · cases clean
      · rw [ih (Option.map_eq_none_iff.mp clean)]
  | octal byte rest ih =>
      rw [find, if_pos (octal_octstring _ byte.1 _)] at clean
      cases clean

end Stands

theorem length_replace_escaped {c d : Char} {s : Text} {k : Nat} (here : escaped d (s.drop k) = true) :
    (Rewriting.replace s k 2 [c]).length < s.length := by
  have whole := congrArg List.length (escaped_cases here)
  simp only [List.length_cons, List.length_drop] at whole
  rw [Rewriting.replace, List.length_append, List.length_append, List.length_take, List.length_drop, List.length_singleton]
  omega

theorem length_replace_octal {s by_ : Text} {k : Nat} (here : octal (s.drop k) = true) (short : by_.length ≤ 1) :
    (Rewriting.replace s k 4 by_).length < s.length := by
  obtain ⟨a, b, c, rest, whole, -⟩ := octal_cases here
  have whole := congrArg List.length whole
  simp only [List.length_cons, List.length_drop] at whole
  rw [Rewriting.replace, List.length_append, List.length_append, List.length_take, List.length_drop]
  omega

section

variable {s t : Text} {turns : Nat}

theorem escaped_keeps {c d : Char} {P : Text → Prop} (same : ∀ s k, P s → escaped d (s.drop k) = true → P (replace s k 2 [c])) :
    ∀ s k, P s → k < s.length → escaped d (s.drop k) = true →
      P (replace s k 2 [c]) ∧ (replace s k 2 [c]).length < s.length :=
  fun s k holds _ here => ⟨same s k holds here, length_replace_escaped here⟩

theorem bytes_collapse (bytes : Dap2.Bytes s) : Dap2.Bytes (collapse s) := by
  fun_induction collapse s with
  | case1 => exact bytes
  | case2 c cs marks ih => exact ih (List.forall_mem_cons.mp bytes).2
  | case3 c cs other ih =>
      obtain ⟨byte, others⟩ := List.forall_mem_cons.mp bytes
      exact List.forall_mem_cons.mpr ⟨byte, ih others⟩

/-- A text for which octal numbers, its own too, may have been taken back. -/
def Decoded (s u : Text) : Prop :=
  Stands u s ∨ ∃ t, Stands u t ∧ t.length < s.length ∧ ∃ v, v <:+ s ∧ octal v = true

theorem Decoded.replace {u : Text} (decoded : Decoded s u) {k : Nat} (here : octal (u.drop k) = true) :
    Decoded s (Rewriting.replace u k 4 (unoctstring ((u.drop (k + 1)).take 3))) := by
  rcases decoded with stands | ⟨t, stands, less, own⟩
  · exact stands.replace here
  · rcases stands.replace here with stands | ⟨t', stands, less', -⟩
    · exact .inr ⟨t, stands, less, own⟩
    · exact .inr ⟨t', stands, Nat.lt_trans less' less, own⟩

/-- What comes back when the escaped text is short enough to be searched. -/
theorem unescattr_short (bytes : Dap2.Bytes s) (short : (escattr s).length ≤ 32766)
    (ends : unescattr turns (escattr s) = some (some t)) : find octal t = none ∧
      (t = collapse s ∨ t.length < (collapse s).length ∧ ∃ v, v <:+ collapse s ∧ octal v = true) := by
  obtain ⟨one, first, ends⟩ := Option.bind_eq_some_iff.mp ends
  obtain ⟨two, second, third⟩ := Option.bind_eq_some_iff.mp ends
  obtain ⟨u, rfl, same, length, clean⟩ := loop_short
    (escaped_keeps (P := fun u => absorb '\\' u = absorb '\\' (escattr s)) fun _ _ same here => (absorb_replace here).trans same)
    rfl short first
  have short' := Nat.le_trans length short
  obtain ⟨v, rfl, same', length', clean'⟩ := loop_short
    (escaped_keeps (P := fun v => absorb '"' v = absorb '"' u) fun _ _ same here => (absorb_replace here).trans same)
    rfl short' second
  have short'' := Nat.le_trans length' short'
  rw [absorb_of_find_none clean] at same
  rw [absorb_of_find_none clean', same, (absorb_escattr s).1] at same'
  subst same'
  have start : Decoded (collapse s) (encode8 (collapse s)) := .inl (.encode8 (bytes_collapse bytes))
  obtain ⟨w, out, ⟨-, decoded⟩, -, clean''⟩ := loop_short (P := fun w => w.length ≤ 32766 ∧ Decoded (collapse s) w)
    (fun w k holds inside here => by
      have less := length_replace_octal here (length_unoctstring ((w.drop (u32 (k + 1))).take 3))
      refine ⟨⟨Nat.le_trans (Nat.le_of_lt less) holds.1, ?_⟩, less⟩
      have small : k + 1 < 2 ^ 32 := Nat.lt_of_le_of_lt (Nat.le_trans inside holds.1) (by decide)
      have place : u32 ((k : Int) + 1) = k + 1 := by exact_mod_cast u32_of_lt small
      rw [place]
      exact holds.2.replace here)
    ⟨short'', start⟩ short'' third
  cases out
  refine ⟨clean'', ?_⟩
  rcases decoded with stands | ⟨t', stands, less, own⟩
  · exact .inl (stands.eq_of_find_none clean'')
  · exact .inr ⟨stands.eq_of_find_none clean'' ▸ less, own⟩

theorem unescattr_short_ends (short : (escattr s).length ≤ 32766) : ∃ t, unescattr 32767 (escattr s) = some (some t) := by
  have two (c d : Char) := escaped_keeps (c := c) (d := d) (P := fun _ => True) fun _ _ _ _ => trivial
  have four (w : Text) (k : Nat) (_ : k < w.length) (here : octal (w.drop k) = true) :=
    length_replace_octal here (length_unoctstring ((w.drop (u32 (k + 1))).take 3))
  obtain ⟨one, first⟩ := loop_short_ends (fun u k inside here => (two '\\' '\\' u k trivial inside here).2) short
    (Nat.lt_succ_of_le short)
  obtain ⟨u, rfl, -, length, -⟩ := loop_short (two '\\' '\\') trivial short first
  have short' := Nat.le_trans length short
  obtain ⟨two_, second⟩ := loop_short_ends (fun u k inside here => (two '"' '"' u k trivial inside here).2) short'
    (Nat.lt_succ_of_le short')
  obtain ⟨v, rfl, -, length', -⟩ := loop_short (two '"' '"') trivial short' second
  have short'' := Nat.le_trans length' short'
  obtain ⟨three, third⟩ := loop_short_ends four short'' (Nat.lt_succ_of_le short'')
  obtain ⟨t, rfl, -⟩ := loop_short (P := fun _ => True) (fun w k _ inside here => ⟨trivial, four w k inside here⟩) trivial short''
    third
  exact ⟨t, Option.bind_eq_some_iff.mpr ⟨_, first, Option.bind_eq_some_iff.mpr ⟨_, second, third⟩⟩⟩

end

/-! ## The round trip -/

theorem length_code (c : Char) : (code c).length =
    1 + (if c = '\\' ∨ c = '"' then 1 else 0) + 3 * (if c ∈ printable then 0 else 1) := by
  unfold code
  by_cases one : c = '\\' ∨ c = '"'
  · have inside : c ∈ printable := by rcases one with rfl | rfl <;> decide
    rw [if_pos one, if_pos one, if_pos inside]
    rfl
  · rw [if_neg one, if_neg one]
    split <;> rfl

theorem length_escattr (s : Text) : (escattr s).length =
    s.length + s.countP (fun c => decide (c = '\\' ∨ c = '"')) + 3 * s.countP (fun c => decide (c ∉ printable)) := by
  rw [escattr_eq]
  induction s with
  | nil => rfl
  | cons c cs ih =>
      rw [List.flatMap_cons, List.length_append, length_code, ih, List.length_cons, List.countP_cons, List.countP_cons]
      by_cases inside : c ∈ printable <;> by_cases one : c = '\\' ∨ c = '"' <;> simp [inside, one] <;> omega

theorem marked_iff {c : Char} : marked c = true ↔ (c = '\\' ∨ c = '"') ∨ c ∉ printable := by
  simp [marked]

/-- Only a text without characters to escape stays as long as it is. -/
theorem length_escattr_eq_iff (s : Text) : (escattr s).length = s.length ↔ ∀ c ∈ s, marked c = false := by
  have none_ : (escattr s).length = s.length ↔ s.countP (fun c => decide (c = '\\' ∨ c = '"')) = 0 ∧
      s.countP (fun c => decide (c ∉ printable)) = 0 := by
    rw [length_escattr]
    omega
  rw [none_, List.countP_eq_zero, List.countP_eq_zero]
  simp only [decide_eq_true_eq, ← forall_and, Bool.eq_false_iff, ne_eq, marked_iff, not_or]

theorem escattr_of_unmarked {s : Text} (plain : ∀ c ∈ s, marked c = false) : escattr s = s := by
  have one : ∀ c ∈ s, code c = [c] := by
    intro c mem
    have unmarked := mt marked_iff.mpr (Bool.eq_false_iff.mp (plain c mem))
    rw [not_or, not_not] at unmarked
    rw [code, if_neg unmarked.1, if_pos unmarked.2]
  rw [escattr_eq, List.flatMap_congr one, List.flatMap_singleton']

theorem collapse_eq_self {s : Text} (whole : (collapse s).length = s.length) : collapse s = s := by
  fun_induction collapse s with
  | case1 => rfl
  | case2 c cs marks ih =>
      have less := length_collapse_le cs
      rw [List.length_cons] at whole
      omega
  | case3 c cs other ih => rw [ih (Nat.succ.inj whole)]

theorem find_octal_eq_none_iff (s : Text) : find octal s = none ↔ ∀ t, '\\' :: t <:+ s → octal ('\\' :: t) = false := by
  induction s with
  | nil => exact iff_of_true rfl fun t suffix => absurd (List.suffix_nil.mp suffix) (List.cons_ne_nil _ _)
  | cons c cs ih =>
      rw [find]
      constructor
      · intro clean t suffix
        split at clean
        · cases clean
        · rename_i other
          rcases List.suffix_cons_iff.mp suffix with same | behind
          · rw [same]
            exact Bool.eq_false_iff.mpr other
          · exact ih.mp (Option.map_eq_none_iff.mp clean) t behind
      · intro all
        have other : ¬octal (c :: cs) = true := by
          intro here
          obtain rfl := octal_head here
          rw [all cs (List.suffix_refl _)] at here
          cases here
        rw [if_neg other, ih.mpr fun t behind => all t (behind.trans (List.suffix_cons c cs))]
        rfl

theorem unescattr_long {s t : Text} {turns : Nat} (long : 32766 < s.length) (ends : unescattr turns s = some (some t)) :
    t = s ∧ s.length < 2 ^ 32 - 1 := by
  obtain ⟨one, first, ends⟩ := Option.bind_eq_some_iff.mp ends
  obtain ⟨two, second, third⟩ := Option.bind_eq_some_iff.mp ends
  cases two with
  | none =>
      cases turns with
      | zero => cases third
      | succ turns =>
          rw [loop_of_none rfl] at third
          cases third
  | some v =>
      cases one with
      | none =>
          cases turns with
          | zero => cases second
          | succ turns =>
              rw [loop_of_none rfl] at second
              cases second
      | some u =>
          rcases Nat.lt_or_ge s.length (2 ^ 32) with fits | endless
          · obtain ⟨rfl, meaning⟩ := loop_long long fits first
            obtain ⟨rfl, -⟩ := loop_long long fits second
            obtain ⟨rfl, -⟩ := loop_long long fits third
            exact ⟨rfl, by omega⟩
          · exact absurd first (loop_endless '\\' endless)

theorem unescattr_long_ends {s : Text} (long : 32766 < s.length) (fits : s.length < 2 ^ 32 - 1) :
    unescattr 1 s = some (some s) := by
  have ends {hit : Text → Bool} {count : Nat} {by_ : Text → Nat → Text} :
      loop (unescape hit count by_) 1 (some s) = some (some s) := by
    have meaning : ¬s.length = 2 ^ 32 - 1 := by omega
    have fits' : s.length < 2 ^ 32 := by omega
    have last := @unescape_long hit count by_ s long fits'
    rw [if_neg meaning] at last
    exact loop_of_none last 0
  rw [unescattr, ends, Option.bind_some, ends, Option.bind_some]
  exact ends

/-- A value comes back when there was nothing to escape in it, up to the length at which the search has no
meaning, and otherwise when it is short enough for a search and nothing that is read as an escape stands in
it already. -/
theorem unescattr_escattr_iff (s : Text) (bytes : Dap2.Bytes s) :
    (∃ turns, unescattr turns (escattr s) = some (some s)) ↔
      (∀ c ∈ s, marked c = false) ∧ s.length < 2 ^ 32 - 1 ∨
        s.length + s.countP (fun c => decide (c = '\\' ∨ c = '"')) + 3 * s.countP (fun c => decide (c ∉ printable)) ≤ 32766 ∧
          ∀ t, '\\' :: t <:+ s → t.head?.any marked = false ∧ octal ('\\' :: t) = false := by
  have back (short : (escattr s).length ≤ 32766)
      (none_ : ∀ t, '\\' :: t <:+ s → t.head?.any marked = false ∧ octal ('\\' :: t) = false) :
      ∃ turns, unescattr turns (escattr s) = some (some s) := by
    have kept := collapse_eq_self ((collapse_eq_self_iff s).mpr fun t suffix => (none_ t suffix).1)
    obtain ⟨t, ends⟩ := unescattr_short_ends short
    obtain ⟨-, rfl | ⟨-, v, suffix, here⟩⟩ := unescattr_short bytes short ends
    · rw [kept] at ends
      exact ⟨_, ends⟩
    · cases v with
      | nil => cases here
      | cons c v =>
          obtain rfl := octal_head here
          rw [kept] at suffix
          rw [(none_ v suffix).2] at here
          cases here
  rw [← length_escattr]
  constructor
  · rintro ⟨turns, ends⟩
    rcases Nat.lt_or_ge 32766 (escattr s).length with long | short
    · obtain ⟨same, fits⟩ := unescattr_long long ends
      have length := congrArg List.length same
      exact .inl ⟨(length_escattr_eq_iff s).mp length.symm, length ▸ fits⟩
    · obtain ⟨clean, same⟩ := unescattr_short bytes short ends
      have less := length_collapse_le s
      have whole : (collapse s).length = s.length := by
        rcases same with same | ⟨less', -⟩
        · rw [← same]
        · omega
      refine .inr ⟨short, fun t suffix => ⟨(collapse_eq_self_iff s).mp whole t suffix, ?_⟩⟩
      exact (find_octal_eq_none_iff s).mp clean t suffix
  · rintro (⟨plain, fits⟩ | ⟨short, none_⟩)
    · have same := escattr_of_unmarked plain
      rcases Nat.lt_or_ge 32766 s.length with long | short
      · exact ⟨1, same.symm ▸ unescattr_long_ends long fits⟩
      · apply back (same.symm ▸ short)
        intro t suffix
        have mark := plain '\\' (suffix.subset List.mem_cons_self)
        exact absurd mark (by decide)
    · exact back short none_

/-- A tab is written as an octal number and read again. -/
theorem tab_back : ∃ turns, unescattr turns (escattr ['a', '\t', '"', 'b']) = some (some ['a', '\t', '"', 'b']) :=
  (unescattr_escattr_iff ['a', '\t', '"', 'b'] (by decide)).mpr (.inr ⟨by decide +kernel,
    fun _ suffix => absurd (suffix.subset List.mem_cons_self) (by decide)⟩)

/-- A backslash before a quote is left out. -/
theorem quote_not_back : ¬∀ s, Dap2.Bytes s → ∃ turns, unescattr turns (escattr s) = some (some s) := by
  intro all
  rcases (unescattr_escattr_iff ['\\', '"'] (by decide)).mp (all _ (by decide)) with ⟨plain, -⟩ | ⟨-, none_⟩
  · exact absurd (plain '\\' List.mem_cons_self) (by decide)
  · exact absurd (none_ ['"'] (List.suffix_refl _)).1 (by decide)

end Libdap.Escaping
