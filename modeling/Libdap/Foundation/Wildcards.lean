import Mathlib.Data.List.Infix

/-! # Patterns with runs

A pattern is a list of pieces: one element out of some, or a run of any elements. A
search tries the runs from the shortest rest of the text to the longest and gives up
once the pattern ends before the text does. That is sound: no longer rest can match then.
-/

namespace Libdap.Wildcards

variable {α : Type}

/-- One piece of a pattern. -/
inductive Piece (α : Type) where
  /-- Any run of elements. -/
  | run
  /-- One element out of those allowed. -/
  | one (allowed : α → Bool)

/-- The texts that a pattern describes. -/
inductive Matched : List (Piece α) → List α → Prop where
  | nil : Matched [] []
  | one {allowed ps a s} (ok : allowed a = true) (rest : Matched ps s) :
      Matched (.one allowed :: ps) (a :: s)
  | run {ps s} (taken : List α) (rest : Matched ps s) : Matched (.run :: ps) (taken ++ s)

theorem matched_nil_iff {s : List α} : Matched [] s ↔ s = [] := by
  constructor
  · intro matched
    cases matched
    rfl
  · intro empty
    subst empty
    exact .nil

theorem matched_one_iff {allowed : α → Bool} {ps : List (Piece α)} {s : List α} :
    Matched (.one allowed :: ps) s ↔ ∃ a rest, s = a :: rest ∧ allowed a = true ∧ Matched ps rest := by
  constructor
  · intro matched
    cases matched with
    | one ok rest => exact ⟨_, _, rfl, ok, rest⟩
  · intro ⟨a, rest, eq, ok, matched⟩
    subst eq
    exact .one ok matched

theorem matched_run_iff {ps : List (Piece α)} {s : List α} :
    Matched (.run :: ps) s ↔ ∃ rest, rest <:+ s ∧ Matched ps rest := by
  constructor
  · intro matched
    cases matched with
    | run taken rest => exact ⟨_, List.suffix_append taken _, rest⟩
  · intro ⟨rest, ⟨taken, eq⟩, matched⟩
    subst eq
    exact .run taken matched

/-! ## The search -/

/-- What a search comes to. -/
inductive Outcome where
  | found
  /-- The pattern ended and the text did not. -/
  | leftOver
  | failed
  deriving DecidableEq, Repr

/-- The proper suffixes of a text, the shortest first. -/
def shorter : List α → List (List α)
  | [] => []
  | _ :: s => shorter s ++ [s]

/-- Try one text after another. A text that is left over ends it. -/
def attempts (search : List α → Outcome) : List (List α) → Option Outcome
  | [] => none
  | s :: rest =>
      match search s with
      | .found => some .found
      | .leftOver => some .failed
      | .failed => attempts search rest

def search : List (Piece α) → List α → Outcome
  | [], [] => .found
  | [], _ :: _ => .leftOver
  | .one _ :: _, [] => .failed
  | .one allowed :: ps, a :: s => if allowed a then search ps s else .failed
  | .run :: ps, s => (attempts (search ps) (shorter s)).getD (search ps s)

theorem mem_shorter {s t : List α} : t ∈ shorter s ↔ t <:+ s ∧ t ≠ s := by
  induction s with
  | nil => simp [shorter]
  | cons a s ih =>
      simp only [shorter, List.mem_append, ih, List.mem_singleton, List.suffix_cons_iff]
      constructor
      · rintro (⟨suffix, -⟩ | rfl)
        · have short := suffix.length_le
          refine ⟨.inr suffix, ?_⟩
          intro eq
          subst eq
          exact absurd short (by simp)
        · exact ⟨.inr List.suffix_rfl, by simp⟩
      · grind

theorem shorter_nested (s : List α) : (shorter s).Pairwise (· <:+ ·) := by
  induction s with
  | nil => exact .nil
  | cons a s ih =>
      simp only [shorter, List.pairwise_append, List.pairwise_singleton, List.mem_singleton]
      refine ⟨ih, trivial, ?_⟩
      intro t mem u eq
      subst eq
      exact (mem_shorter.mp mem).1

variable {search' : List α → Outcome}

theorem attempts_none {texts : List (List α)} (none_ : attempts search' texts = none) :
    ∀ s ∈ texts, search' s = .failed := by
  fun_induction attempts search' texts with
  | case1 => simp
  | case2 | case3 => simp at none_
  | case4 s rest failed ih =>
      intro t mem
      cases mem with
      | head => exact failed
      | tail _ mem => exact ih none_ t mem

theorem attempts_found {texts : List (List α)} (found : attempts search' texts = some .found) :
    ∃ s ∈ texts, search' s = .found := by
  fun_induction attempts search' texts with
  | case1 | case3 => simp at found
  | case2 s rest here => exact ⟨s, by simp, here⟩
  | case4 s rest failed ih =>
      obtain ⟨t, mem, here⟩ := ih found
      exact ⟨t, .tail _ mem, here⟩

theorem attempts_not_leftOver (texts : List (List α)) : attempts search' texts ≠ some .leftOver := by
  fun_induction attempts search' texts with
  | case1 | case2 | case3 => simp
  | case4 s rest failed ih => exact ih

/-- A failure among nested texts: one was left over, what came before it failed and what comes after it
    is longer. -/
theorem attempts_failed {texts : List (List α)} (nested : texts.Pairwise (· <:+ ·))
    (failed : attempts search' texts = some .failed) :
    ∃ s ∈ texts, search' s = .leftOver ∧ ∀ t ∈ texts, search' t = .failed ∨ s <:+ t := by
  fun_induction attempts search' texts with
  | case1 | case2 => simp at failed
  | case3 s rest here =>
      refine ⟨s, by simp, here, ?_⟩
      intro t mem
      cases mem with
      | head => exact .inr List.suffix_rfl
      | tail _ mem => exact .inr (List.rel_of_pairwise_cons nested mem)
  | case4 s rest here ih =>
      obtain ⟨u, mem, ended, others⟩ := ih nested.of_cons failed
      refine ⟨u, .tail _ mem, ended, ?_⟩
      intro t mem
      cases mem with
      | head => exact .inl here
      | tail _ mem => exact others t mem

/-! ## It finds what there is -/

/-- What a search says of its text and, where that is left over, of every longer one. -/
structure Sound (ps : List (Piece α)) (search : List α → Outcome) : Prop where
  found : ∀ s, search s = .found ↔ Matched ps s
  leftOver : ∀ s, search s = .leftOver → ∀ t, s <:+ t → ¬ Matched ps t

namespace Sound

theorem unmatched {ps : List (Piece α)} {s : List α} (sound : Sound ps search') (failed : search' s = .failed) :
    ¬ Matched ps s := by
  intro matched
  have found := (sound.found s).mpr matched
  simp [failed] at found

theorem nil : Sound ([] : List (Piece α)) (search []) := by
  constructor
  · intro s
    cases s with
    | nil => simp [search, matched_nil_iff]
    | cons a s => simp [search, matched_nil_iff]
  · intro s ended t suffix matched
    have empty := matched_nil_iff.mp matched
    subst empty
    have empty := List.suffix_nil.mp suffix
    subst empty
    simp [search] at ended

theorem one {ps : List (Piece α)} (allowed : α → Bool) (sound : Sound ps (search ps)) :
    Sound (.one allowed :: ps) (search (.one allowed :: ps)) := by
  constructor
  · intro s
    cases s with
    | nil => simp [search, matched_one_iff]
    | cons a s =>
        simp only [search, matched_one_iff]
        split
        · simp_all [sound.found]
        · simp_all
  · intro s ended t suffix matched
    obtain ⟨b, rest, eq, ok, matchedRest⟩ := matched_one_iff.mp matched
    subst eq
    cases s with
    | nil => simp [search] at ended
    | cons a s =>
        simp only [search] at ended
        split at ended
        · refine sound.leftOver s ended rest ?_ matchedRest
          cases List.suffix_cons_iff.mp suffix with
          | inl eq => exact (List.cons.inj eq).2 ▸ List.suffix_rfl
          | inr longer => exact (List.suffix_cons a s).trans longer
        · simp at ended

/-- Nothing that the rest of a text holds matches where every attempt failed and the text was left over. -/
theorem run {ps : List (Piece α)} (sound : Sound ps (search ps)) :
    Sound (.run :: ps) (search (.run :: ps)) := by
  constructor
  · intro s
    rw [search, matched_run_iff]
    cases tried : attempts (search ps) (shorter s) with
    | none =>
        have failed := attempts_none tried
        rw [Option.getD_none, sound.found]
        constructor
        · intro matched
          exact ⟨s, List.suffix_rfl, matched⟩
        · intro ⟨t, suffix, matched⟩
          by_cases whole : t = s
          · exact whole ▸ matched
          · exact absurd matched (sound.unmatched (failed t (mem_shorter.mpr ⟨suffix, whole⟩)))
    | some outcome =>
        rw [Option.getD_some]
        cases outcome with
        | found =>
            obtain ⟨t, mem, found⟩ := attempts_found tried
            exact iff_of_true rfl ⟨t, (mem_shorter.mp mem).1, (sound.found t).mp found⟩
        | leftOver => exact absurd tried (attempts_not_leftOver _)
        | failed =>
            obtain ⟨u, mem, ended, others⟩ := attempts_failed (shorter_nested s) tried
            refine iff_of_false (by simp) ?_
            intro ⟨t, suffix, matched⟩
            by_cases whole : t = s
            · subst whole
              exact sound.leftOver u ended t (mem_shorter.mp mem).1 matched
            · cases others t (mem_shorter.mpr ⟨suffix, whole⟩) with
              | inl failed => exact sound.unmatched failed matched
              | inr longer => exact sound.leftOver u ended t longer matched
  · intro s ended t suffix matched
    rw [search] at ended
    obtain ⟨u, inside, matched⟩ := matched_run_iff.mp matched
    cases tried : attempts (search ps) (shorter s) with
    | some outcome =>
        rw [tried, Option.getD_some] at ended
        exact attempts_not_leftOver _ (ended ▸ tried)
    | none =>
        rw [tried, Option.getD_none] at ended
        cases List.suffix_or_suffix_of_suffix suffix inside with
        | inl longer => exact sound.leftOver s ended u longer matched
        | inr suffix =>
            by_cases whole : u = s
            · exact sound.leftOver s ended u (whole ▸ List.suffix_rfl) matched
            · exact sound.unmatched (attempts_none tried u (mem_shorter.mpr ⟨suffix, whole⟩)) matched

end Sound

theorem search_sound (ps : List (Piece α)) : Sound ps (search ps) := by
  induction ps with
  | nil => exact .nil
  | cons p ps ih =>
      cases p with
      | run => exact ih.run
      | one allowed => exact ih.one allowed

/-- Giving up early loses nothing. -/
theorem search_found_iff (ps : List (Piece α)) (s : List α) : search ps s = .found ↔ Matched ps s :=
  (search_sound ps).found s

/-! ## Which patterns describe the same texts

The shortest texts of a pattern have one element for each piece that is not a run, so
they say what each of these pieces allows, unless there is no such text.
-/

/-- The shortest texts: every run is empty. -/
inductive Spelled : List (Piece α) → List α → Prop where
  | nil : Spelled [] []
  | one {allowed ps a s} (ok : allowed a = true) (rest : Spelled ps s) :
      Spelled (.one allowed :: ps) (a :: s)
  | run {ps s} (rest : Spelled ps s) : Spelled (.run :: ps) s

/-- How many pieces take one element. -/
def ones : List (Piece α) → Nat
  | [] => 0
  | .run :: ps => ones ps
  | .one _ :: ps => ones ps + 1

theorem Spelled.matched {ps : List (Piece α)} {s : List α} (spelled : Spelled ps s) : Matched ps s := by
  induction spelled with
  | nil => exact .nil
  | one ok rest ih => exact .one ok ih
  | run rest ih => exact .run [] ih

theorem Spelled.length {ps : List (Piece α)} {s : List α} (spelled : Spelled ps s) : s.length = ones ps := by
  induction spelled with
  | nil => rfl
  | one ok rest ih => simp [ones, ih]
  | run rest ih => exact ih

theorem Matched.length {ps : List (Piece α)} {s : List α} (matched : Matched ps s) : ones ps ≤ s.length := by
  induction matched with
  | nil => exact Nat.le_refl _
  | one ok rest ih => simpa [ones] using ih
  | run taken rest ih =>
      simp only [ones, List.length_append]
      omega

/-- A matched text that is no longer than it must be is spelled out. -/
theorem Matched.spelled {ps : List (Piece α)} {s : List α} (matched : Matched ps s)
    (short : s.length ≤ ones ps) : Spelled ps s := by
  induction matched with
  | nil => exact .nil
  | one ok rest ih =>
      simp only [ones, List.length_cons] at short
      exact .one ok (ih (by omega))
  | @run ps s taken rest ih =>
      have least := rest.length
      simp only [ones, List.length_append] at short
      have empty : taken = [] := List.eq_nil_of_length_eq_zero (by omega)
      subst empty
      exact .run (ih (by omega))

/-- Two pieces at one place: two runs, or `P` of what they allow. -/
inductive Aligned (P : (α → Bool) → (α → Bool) → Prop) : Piece α → Piece α → Prop where
  | run : Aligned P .run .run
  | one {p q} (both : P p q) : Aligned P (.one p) (.one q)

/-- Two patterns with their runs at the same places. -/
abbrev SameShape : List (Piece α) → List (Piece α) → Prop := List.Forall₂ (Aligned fun _ _ => True)

variable {A : α → Prop}

/-- Some piece takes an element and allows none of the alphabet. -/
def Hopeless (A : α → Prop) (ps : List (Piece α)) : Prop :=
  ∃ p, Piece.one p ∈ ps ∧ ∀ a, A a → p a = false

/-- Piece by piece, the two allow the same elements of the alphabet. -/
abbrev Agree (A : α → Prop) : List (Piece α) → List (Piece α) → Prop :=
  List.Forall₂ (Aligned fun p q => ∀ a, A a → p a = q a)

theorem agree_cons {p q : Piece α} {ps qs : List (Piece α)} :
    Agree A (p :: ps) (q :: qs) ↔ Aligned (fun p q => ∀ a, A a → p a = q a) p q ∧ Agree A ps qs :=
  List.forall₂_cons

theorem Agree.symm {ps qs : List (Piece α)} (agree : Agree A ps qs) : Agree A qs ps := by
  induction agree with
  | nil => exact .nil
  | cons first rest ih =>
      refine .cons ?_ ih
      cases first with
      | run => exact .run
      | one both => exact .one fun a mem => (both a mem).symm

theorem SameShape.symm {ps qs : List (Piece α)} (shape : SameShape ps qs) : SameShape qs ps := by
  induction shape with
  | nil => exact .nil
  | cons first rest ih =>
      refine .cons ?_ ih
      cases first with
      | run => exact .run
      | one both => exact .one trivial

theorem SameShape.ones {ps qs : List (Piece α)} (shape : SameShape ps qs) :
    Wildcards.ones ps = Wildcards.ones qs := by
  induction shape with
  | nil => rfl
  | cons first rest ih => cases first <;> simp [Wildcards.ones, ih]

theorem Agree.matched {ps qs : List (Piece α)} (agree : Agree A ps qs) {s : List α} (inside : ∀ a ∈ s, A a)
    (matched : Matched ps s) : Matched qs s := by
  induction matched generalizing qs with
  | nil =>
      cases agree
      exact .nil
  | one ok rest ih =>
      cases agree with
      | cons first agree =>
          cases first with
          | one both =>
              refine .one ?_ (ih agree fun a mem => inside a (.tail _ mem))
              exact both _ (inside _ (.head _)) ▸ ok
  | run taken rest ih =>
      cases agree with
      | cons first agree =>
          cases first with
          | run => exact .run taken (ih agree fun a mem => inside a (List.mem_append_right _ mem))

theorem Hopeless.unmatched {ps : List (Piece α)} (hopeless : Hopeless A ps) {s : List α}
    (inside : ∀ a ∈ s, A a) : ¬ Matched ps s := by
  intro matched
  obtain ⟨p, mem, none_⟩ := hopeless
  induction matched with
  | nil => simp at mem
  | one ok rest ih =>
      cases mem with
      | head => simp [none_ _ (inside _ (.head _))] at ok
      | tail _ mem => exact ih (fun a mem => inside a (.tail _ mem)) mem
  | run taken rest ih =>
      cases mem with
      | tail _ mem => exact ih (fun a mem => inside a (List.mem_append_right _ mem)) mem

/-- A pattern that is not hopeless spells some text. -/
theorem spelled_of_hopeful {ps : List (Piece α)} (hopeful : ¬ Hopeless A ps) :
    ∃ s, (∀ a ∈ s, A a) ∧ Spelled ps s := by
  induction ps with
  | nil => exact ⟨[], by simp, .nil⟩
  | cons p ps ih =>
      have below : ¬ Hopeless A ps := fun ⟨q, mem, none_⟩ => hopeful ⟨q, .tail _ mem, none_⟩
      obtain ⟨s, inside, spelled⟩ := ih below
      cases p with
      | run => exact ⟨s, inside, .run spelled⟩
      | one allowed =>
          have some_ : ∃ a, A a ∧ allowed a = true := by
            by_contra none_
            refine hopeful ⟨allowed, .head _, ?_⟩
            intro a mem
            exact Bool.eq_false_iff.mpr fun ok => none_ ⟨a, mem, ok⟩
          obtain ⟨a, mem, ok⟩ := some_
          refine ⟨a :: s, ?_, .one ok spelled⟩
          simpa [mem] using inside

/-- The texts that a hopeful pattern spells bound what the pieces of another allow from below. -/
theorem aligned_of_spelled {ps qs : List (Piece α)} (shape : SameShape ps qs) (hopeful : ¬ Hopeless A ps)
    (texts : ∀ s, (∀ a ∈ s, A a) → Spelled ps s → Spelled qs s) :
    List.Forall₂ (Aligned fun p q => ∀ a, A a → p a = true → q a = true) ps qs := by
  induction shape with
  | nil => exact .nil
  | @cons p q ps qs first shape ih =>
      have below : ¬ Hopeless A ps := fun ⟨r, mem, none_⟩ => hopeful ⟨r, .tail _ mem, none_⟩
      obtain ⟨s, inside, spelled⟩ := spelled_of_hopeful hopeful
      cases first with
      | run =>
          refine .cons .run (ih below ?_)
          intro t inside spelled
          cases texts t inside (.run spelled) with
          | run rest => exact rest
      | one both =>
          cases spelled with
          | @one _ _ a s ok rest =>
              obtain ⟨first, others⟩ := List.forall_mem_cons.mp inside
              refine .cons (.one ?_) (ih below ?_)
              · intro b mem allowed
                cases texts (b :: s) (List.forall_mem_cons.mpr ⟨mem, others⟩) (.one allowed rest) with
                | one ok rest => exact ok
              · intro t within spelled
                cases texts (a :: t) (List.forall_mem_cons.mpr ⟨first, within⟩) (.one ok spelled) with
                | one ok rest => exact rest

/-- Two patterns of one shape describe the same texts over an alphabet when piece by piece they allow the
    same, and otherwise only when neither describes any. -/
theorem same_texts_iff {ps qs : List (Piece α)} (shape : SameShape ps qs) :
    (∀ s, (∀ a ∈ s, A a) → (Matched ps s ↔ Matched qs s)) ↔
      Agree A ps qs ∨ Hopeless A ps ∧ Hopeless A qs := by
  constructor
  · intro same
    have forward : ∀ s, (∀ a ∈ s, A a) → Spelled ps s → Spelled qs s := by
      intro s inside spelled
      exact ((same s inside).mp spelled.matched).spelled (by rw [spelled.length, shape.ones])
    have backward : ∀ s, (∀ a ∈ s, A a) → Spelled qs s → Spelled ps s := by
      intro s inside spelled
      exact ((same s inside).mpr spelled.matched).spelled (by rw [spelled.length, shape.ones])
    by_cases hopeless : Hopeless A ps
    · refine .inr ⟨hopeless, ?_⟩
      by_contra hopeful
      obtain ⟨s, inside, spelled⟩ := spelled_of_hopeful hopeful
      exact hopeless.unmatched inside (backward s inside spelled).matched
    · have hopeful : ¬ Hopeless A qs := by
        intro other
        obtain ⟨s, inside, spelled⟩ := spelled_of_hopeful hopeless
        exact other.unmatched inside (forward s inside spelled).matched
      have lower := aligned_of_spelled shape hopeless forward
      have upper := aligned_of_spelled shape.symm hopeful backward
      refine .inl ?_
      clear same forward backward hopeless hopeful shape
      induction lower with
      | nil => exact .nil
      | cons first lower ih =>
          cases upper with
          | cons second upper =>
              refine .cons ?_ (ih upper)
              cases first with
              | run => exact .run
              | one up =>
                  cases second with
                  | one down => exact .one fun a mem => Bool.eq_iff_iff.mpr ⟨up a mem, down a mem⟩
  · rintro (agree | ⟨left, right⟩) s inside
    · exact ⟨agree.matched inside, agree.symm.matched inside⟩
    · exact iff_of_false (left.unmatched inside) (right.unmatched inside)

end Libdap.Wildcards
