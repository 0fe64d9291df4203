import Mathlib.Data.List.Basic
import Libdap.Foundation.Loop

/-! # Searching and replacing in place

A text is searched from some place on, what is found is replaced, and the search goes on at a place
that is counted from there. What it comes to is told from the front of the text to its end: each
place is either passed over or replaced, and what was put there may be looked at again.
-/

namespace Libdap.Rewriting

variable {α : Type}

/-- The first place of a text at which there is something to be found. -/
def find (hit : List α → Bool) : List α → Option Nat
  | [] => none
  | c :: cs => if hit (c :: cs) then some 0 else (find hit cs).map (· + 1)

def replace (s : List α) (place count : Nat) (by_ : List α) : List α := s.take place ++ by_ ++ s.drop (place + count)

section

variable {hit : List α → Bool} {s : List α} {k : Nat}

theorem find_some (found : find hit s = some k) : k < s.length ∧ hit (s.drop k) = true := by
  fun_induction find hit s generalizing k with
  | case1 => cases found
  | case2 c cs here =>
      cases found
      exact ⟨Nat.zero_lt_succ _, here⟩
  | case3 c cs other ih =>
      obtain ⟨j, there, rfl⟩ := Option.map_eq_some_iff.mp found
      obtain ⟨inside, here⟩ := ih there
      exact ⟨Nat.succ_lt_succ inside, here⟩

theorem find_none (none_ : find hit s = none) (inside : k < s.length) : hit (s.drop k) = false := by
  fun_induction find hit s generalizing k with
  | case1 => exact absurd inside (Nat.not_lt_zero _)
  | case2 => cases none_
  | case3 c cs other ih =>
      cases k with
      | zero => exact Bool.eq_false_iff.mpr other
      | succ k => exact ih (Option.map_eq_none_iff.mp none_) (Nat.lt_of_succ_lt_succ inside)

/-- What a list is replaced by starts at the place. -/
theorem drop_replace (inside : k ≤ s.length) (count : Nat) (by_ : List α) (skip : Nat) :
    (replace s k count by_).drop (k + skip) = (by_ ++ (s.drop k).drop count).drop skip := by
  have place : (s.take k).length = k := List.length_take_of_le inside
  have rest : (replace s k count by_).drop k = by_ ++ (s.drop k).drop count := by
    rw [replace, List.append_assoc, List.drop_drop]
    exact List.drop_left' place
  rw [← rest, List.drop_drop]

theorem replace_append (front : List α) (s : List α) (k count : Nat) (by_ : List α) :
    replace (front ++ s) (front.length + k) count by_ = front ++ replace s k count by_ := by
  rw [replace, replace, Nat.add_assoc, List.take_length_add_append, List.drop_length_add_append, List.append_assoc,
    List.append_assoc, List.append_assoc]

end

/-- What to look for, how much of it to replace by what, and where to go on. A text gets smaller when
what is found at its front is replaced. -/
structure Rewriter (α : Type) where
  hit : List α → Bool
  count : List α → Nat
  by_ : List α → List α
  skip : List α → Nat
  size : List α → Nat
  smaller : ∀ c cs, hit (c :: cs) = true →
    size ((by_ (c :: cs) ++ (c :: cs).drop (count (c :: cs))).drop (skip (c :: cs))) < size (c :: cs)
  size_cons : ∀ c cs, size cs ≤ size (c :: cs)

namespace Rewriter

variable (r : Rewriter α)

/-- The text with what was found at its front replaced. -/
def put (text : List α) : List α := r.by_ text ++ text.drop (r.count text)

/-- The text and the place in it. -/
def turn (at_ : List α × Nat) : Option (List α × Nat) :=
  (find r.hit (at_.1.drop at_.2)).map fun k =>
    let place := at_.2 + k
    let text := at_.1.drop place
    (replace at_.1 place (r.count text) (r.by_ text), place + r.skip text)

theorem size_drop_le (s : List α) (k : Nat) : r.size (s.drop k) ≤ r.size s := by
  induction k generalizing s with
  | zero => exact Nat.le_refl _
  | succ k ih =>
      cases s with
      | nil => exact Nat.le_refl _
      | cons c cs => exact Nat.le_trans (ih cs) (r.size_cons c cs)

def loop : Loop (List α × Nat) where
  turn := r.turn
  size at_ := r.size (at_.1.drop at_.2)
  smaller := by
    intro at_ at' next
    obtain ⟨s, i⟩ := at_
    obtain ⟨k, found, rfl⟩ := Option.map_eq_some_iff.mp next
    obtain ⟨inside, hit⟩ := find_some found
    simp only [List.length_drop] at inside
    rw [List.drop_drop] at hit
    simp only
    rw [drop_replace (by omega)]
    have before := r.size_drop_le (s.drop i) k
    rw [List.drop_drop] at before
    cases text : s.drop (i + k) with
    | nil =>
        have none_ : (s.drop (i + k)).length = 0 := by rw [text]; rfl
        rw [List.length_drop] at none_
        omega
    | cons c cs =>
        rw [text] at hit before
        exact Nat.lt_of_lt_of_le (r.smaller c cs hit) before

/-- The whole text is searched. -/
def rewrite (s : List α) : List α := (r.loop.run (s, 0)).1

variable {r}

theorem turn_eq (r : Rewriter α) (s : List α) (i : Nat) : r.loop.turn (s, i) = (find r.hit (s.drop i)).map fun k =>
    (replace s (i + k) (r.count (s.drop (i + k))) (r.by_ (s.drop (i + k))), i + k + r.skip (s.drop (i + k))) := rfl

/-- What comes before the place stays. -/
theorem run_behind (r : Rewriter α) (front s : List α) :
    (r.loop.run (front ++ s, front.length)).1 = front ++ r.rewrite s := by
  have same : ∀ at_ : List α × Nat, r.loop.turn (front ++ at_.1, front.length + at_.2) =
      (r.loop.turn at_).map fun at' => (front ++ at'.1, front.length + at'.2) := by
    intro at_
    obtain ⟨s, i⟩ := at_
    simp only [turn_eq, Option.map_map, List.drop_length_add_append, Nat.add_assoc, replace_append]
    rfl
  have comm := Loop.run_comm same (s, 0)
  exact congrArg Prod.fst comm

@[simp]
theorem rewrite_nil (r : Rewriter α) : r.rewrite [] = [] := by
  rw [rewrite, Loop.run_of_none rfl]

/-- What was put at the front is looked at again, or some of it is not. -/
theorem rewrite_of_hit {c : α} {cs : List α} (hit : r.hit (c :: cs) = true) :
    r.rewrite (c :: cs) = (r.put (c :: cs)).take (r.skip (c :: cs)) ++
      r.rewrite ((r.put (c :: cs)).drop (r.skip (c :: cs))) := by
  have next : r.loop.turn (c :: cs, 0) = some (r.put (c :: cs), r.skip (c :: cs)) := by
    rw [turn_eq, List.drop_zero, find, if_pos hit, Option.map_some, List.drop_zero, Nat.add_zero, Nat.zero_add, replace,
      List.take_zero, List.nil_append, Nat.zero_add, put]
  rw [rewrite, Loop.run_of_some next]
  by_cases inside : r.skip (c :: cs) ≤ (r.put (c :: cs)).length
  · have behind := run_behind r ((r.put (c :: cs)).take (r.skip (c :: cs))) ((r.put (c :: cs)).drop (r.skip (c :: cs)))
    rwa [List.take_append_drop, List.length_take_of_le inside] at behind
  · have last : r.loop.turn (r.put (c :: cs), r.skip (c :: cs)) = none := by
      rw [turn_eq, List.drop_eq_nil_of_le (by omega), find, Option.map_none]
    rw [Loop.run_of_none last, List.drop_eq_nil_of_le (by omega), rewrite_nil, List.take_of_length_le (by omega),
      List.append_nil]

/-- A place where there is nothing is passed over. -/
theorem rewrite_of_not_hit {c : α} {cs : List α} (other : r.hit (c :: cs) = false) :
    r.rewrite (c :: cs) = c :: r.rewrite cs := by
  have later : r.loop.turn (c :: cs, 0) = r.loop.turn (c :: cs, 1) := by
    simp only [turn_eq, List.drop_zero, List.drop_succ_cons, find, other, Bool.false_eq_true, if_false, Option.map_map,
      Function.comp_def, Nat.add_comm, Nat.zero_add]
  have behind := run_behind r [c] cs
  cases next : r.loop.turn (c :: cs, 0) with
  | none =>
      rw [List.singleton_append, List.length_singleton, Loop.run_of_none (later ▸ next)] at behind
      rw [rewrite, Loop.run_of_none next]
      exact behind
  | some at_ =>
      rw [List.singleton_append, List.length_singleton, Loop.run_of_some (later ▸ next)] at behind
      rw [rewrite, Loop.run_of_some next]
      exact behind

/-- A text is told from its front: there is something to replace, or the first place is passed over. -/
theorem induction (r : Rewriter α) {P : List α → Prop} (nil : P [])
    (found : ∀ c cs, r.hit (c :: cs) = true → P ((r.put (c :: cs)).drop (r.skip (c :: cs))) → P (c :: cs))
    (passed : ∀ c cs, r.hit (c :: cs) = false → P cs → P (c :: cs)) (s : List α) : P s := by
  induction size : r.size s using Nat.strongRecOn generalizing s with
  | ind n ih =>
      induction s generalizing n with
      | nil => exact nil
      | cons c cs ih' =>
          cases hit : r.hit (c :: cs) with
          | true => exact found c cs hit (ih _ (size ▸ r.smaller c cs hit) _ rfl)
          | false =>
              apply passed c cs hit
              apply ih' (r.size cs) _ rfl
              intro m less
              exact ih m (Nat.lt_of_lt_of_le less (size ▸ r.size_cons c cs))

/-- A text without anything to replace stays as it is. -/
theorem rewrite_eq_self {s : List α} (clean : ∀ k < s.length, r.hit (s.drop k) = false) : r.rewrite s = s := by
  induction s with
  | nil => exact rewrite_nil r
  | cons c cs ih =>
      rw [rewrite_of_not_hit (clean 0 (Nat.zero_lt_succ _)), ih fun k inside => clean (k + 1) (Nat.succ_lt_succ inside)]

/-! ## Elements that are replaced -/

/-- Every special element is replaced. What is put there and looked at again has none of them. -/
def each (special : α → Bool) (by_ : α → List α) (skip : Nat)
    (clean : ∀ c, special c = true → ∀ d ∈ (by_ c).drop skip, special d = false) : Rewriter α where
  hit text := text.head?.any special
  count _ := 1
  by_ text := text.head?.toList.flatMap by_
  skip _ := skip
  size text := text.countP special
  smaller c cs hit := by
    have special_ : special c = true := hit
    have again : ((by_ c).drop skip).countP special = 0 := List.countP_eq_zero.mpr fun d mem => by
      rw [clean c special_ d mem]
      decide
    have rest : (cs.drop (skip - (by_ c).length)).countP special ≤ cs.countP special :=
      (List.drop_sublist _ _).countP_le
    simp only [List.head?_cons, Option.toList_some, List.flatMap_singleton, List.drop_one, List.tail_cons, List.drop_append,
      List.countP_append, List.countP_cons_of_pos special_]
    omega
  size_cons c cs := by
    rw [List.countP_cons]
    exact Nat.le_add_right _ _

/-- What every element turns into. -/
theorem rewrite_each {special : α → Bool} {by_ : α → List α} {skip : Nat}
    {clean : ∀ c, special c = true → ∀ d ∈ (by_ c).drop skip, special d = false}
    (inside : ∀ c, special c = true → skip ≤ (by_ c).length) (s : List α) :
    (each special by_ skip clean).rewrite s = s.flatMap fun c => if special c then by_ c else [c] := by
  have passed : ∀ front s : List α, (∀ d ∈ front, special d = false) →
      (each special by_ skip clean).rewrite (front ++ s) = front ++ (each special by_ skip clean).rewrite s := by
    intro front s plain
    induction front with
    | nil => rfl
    | cons d front ih =>
        obtain ⟨first, others⟩ := List.forall_mem_cons.mp plain
        rw [List.cons_append, rewrite_of_not_hit first, ih others, List.cons_append]
  induction s with
  | nil => exact rewrite_nil _
  | cons c cs ih =>
      rw [List.flatMap_cons]
      cases here : special c with
      | false => rw [rewrite_of_not_hit here, ih, if_neg Bool.false_ne_true, List.singleton_append]
      | true =>
          have put : (each special by_ skip clean).put (c :: cs) = by_ c ++ cs := by
            simp only [Rewriter.put, each, List.head?_cons, Option.toList_some, List.flatMap_singleton, List.drop_one,
              List.tail_cons]
          have length := inside c here
          rw [rewrite_of_hit here, put, if_pos rfl]
          change (by_ c ++ cs).take skip ++ rewrite _ ((by_ c ++ cs).drop skip) = _
          rw [List.take_append_of_le_length length, List.drop_append_of_le_length length, passed _ _ (clean c here), ih,
            ← List.append_assoc, List.take_append_drop]

/-! ## A word that is replaced -/

section

variable [DecidableEq α] {word by_ : List α} {skip : Nat}

/-- A word is replaced by a shorter one. -/
def replacing (word by_ : List α) (skip : Nat) (shorter : by_.length < word.length) : Rewriter α where
  hit := word.isPrefixOf
  count _ := word.length
  by_ _ := by_
  skip _ := skip
  size := List.length
  smaller c cs hit := by
    have length := (List.isPrefixOf_iff_prefix.mp hit).length_le
    rw [List.length_drop, List.length_append, List.length_drop]
    omega
  size_cons _ _ := Nat.le_succ _

variable {shorter : by_.length < word.length}

theorem replacing_hit_iff {s : List α} : (replacing word by_ skip shorter).hit s = true ↔ word <+: s :=
  List.isPrefixOf_iff_prefix

/-- The word at the front. -/
theorem rewrite_word (s : List α) : (replacing word by_ skip shorter).rewrite (word ++ s) =
    (by_ ++ s).take skip ++ (replacing word by_ skip shorter).rewrite ((by_ ++ s).drop skip) := by
  obtain ⟨c, cs, whole⟩ : ∃ c cs, word ++ s = c :: cs := by
    apply List.exists_cons_of_ne_nil
    intro none_
    obtain ⟨rfl, -⟩ := List.append_eq_nil_iff.mp none_
    exact Nat.not_lt_zero _ shorter
  have hit : (replacing word by_ skip shorter).hit (c :: cs) = true :=
    replacing_hit_iff.mpr (whole ▸ List.prefix_append word s)
  have put : (replacing word by_ skip shorter).put (word ++ s) = by_ ++ s :=
    congrArg (by_ ++ ·) (List.drop_left ..)
  rw [whole] at put ⊢
  rw [rewrite_of_hit hit, put]
  rfl

theorem rewrite_other {c : α} {cs : List α} (other : ¬word <+: c :: cs) :
    (replacing word by_ skip shorter).rewrite (c :: cs) = c :: (replacing word by_ skip shorter).rewrite cs :=
  rewrite_of_not_hit (Bool.eq_false_iff.mpr fun hit => other (replacing_hit_iff.mp hit))

theorem length_rewrite_le (s : List α) : ((replacing word by_ skip shorter).rewrite s).length ≤ s.length := by
  induction s using (replacing word by_ skip shorter).induction with
  | nil => exact Nat.le_of_eq (congrArg List.length (rewrite_nil _))
  | found c cs hit ih =>
      obtain ⟨rest, whole⟩ := replacing_hit_iff.mp hit
      have put : (replacing word by_ skip shorter).put (c :: cs) = by_ ++ rest := by
        rw [← whole]
        exact congrArg (by_ ++ ·) (List.drop_left ..)
      have length := congrArg List.length whole
      rw [put] at ih
      rw [← whole, rewrite_word]
      have parts := congrArg List.length (List.take_append_drop skip (by_ ++ rest))
      rw [List.length_append] at parts
      change ((replacing word by_ skip shorter).rewrite ((by_ ++ rest).drop skip)).length ≤ ((by_ ++ rest).drop skip).length at ih
      rw [List.length_append, List.length_append]
      rw [List.length_append] at parts
      omega
  | passed c cs other ih =>
      rw [rewrite_of_not_hit other]
      exact Nat.succ_le_succ ih

/-- A text with the word in it gets shorter. -/
theorem length_rewrite_lt {s : List α} (occurs : word <:+: s) :
    ((replacing word by_ skip shorter).rewrite s).length < s.length := by
  have found : ∀ rest : List α, ((replacing word by_ skip shorter).rewrite (word ++ rest)).length < (word ++ rest).length := by
    intro rest
    have parts := congrArg List.length (List.take_append_drop skip (by_ ++ rest))
    have behind := @length_rewrite_le _ _ word by_ skip shorter ((by_ ++ rest).drop skip)
    rw [rewrite_word, List.length_append, List.length_append]
    rw [List.length_append, List.length_append] at parts
    omega
  obtain ⟨front, rest, rfl⟩ := occurs
  rw [List.append_assoc]
  induction front with
  | nil => exact found rest
  | cons c front ih =>
      by_cases hit : word <+: c :: (front ++ (word ++ rest))
      · obtain ⟨rest', whole⟩ := hit
        rw [List.cons_append, ← whole]
        exact found rest'
      · rw [List.cons_append, rewrite_other hit]
        exact Nat.succ_lt_succ ih

/-- A text stays as it is exactly when the word does not occur in it. -/
theorem rewrite_eq_self_iff (s : List α) : (replacing word by_ skip shorter).rewrite s = s ↔ ¬word <:+: s := by
  constructor
  · intro same occurs
    have less := @length_rewrite_lt _ _ word by_ skip shorter s occurs
    rw [same] at less
    exact Nat.lt_irrefl _ less
  · intro absent
    apply rewrite_eq_self
    intro k inside
    apply Bool.eq_false_iff.mpr
    intro hit
    exact absent ((replacing_hit_iff.mp hit).isInfix.trans (List.drop_suffix k s).isInfix)

theorem rewrite_eq_self_of_length {s : List α} (length : s.length ≤ ((replacing word by_ skip shorter).rewrite s).length) :
    (replacing word by_ skip shorter).rewrite s = s :=
  (rewrite_eq_self_iff s).mpr fun occurs => Nat.not_lt.mpr length (length_rewrite_lt occurs)

end

end Rewriter

end Libdap.Rewriting
