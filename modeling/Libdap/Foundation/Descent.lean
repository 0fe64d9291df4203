import Mathlib.Tactic.Common

/-! # Machines that follow a descent

A machine is given one event after the other, and keeps on stacks where it is. What the
events of a tree mean is also told by a function that goes down the tree. The machine follows
the descent when it gets to what that comes to, and is lost when that fails.
-/

namespace Libdap

/-- Why a descent comes to nothing: it fails, or there is something that it does not speak of. -/
inductive Halt where
  | failed
  | misplaced
  deriving Repr, DecidableEq

abbrev Descent := Except Halt

/-- A step of a descent that fails when this does. -/
def Descent.need {ε α : Type} : Except ε α → Descent α
  | .ok a => .ok a
  | .error _ => .error .failed

section

variable {σ ι ε α β : Type} (step : σ → ι → Except ε σ) (Lost : σ → Prop)

/-- From a state the events lead to what the descent comes to. -/
def Follows (r : Descent α) (events : List ι) (s : σ) (Rel : σ → α → Prop) : Prop :=
  match r with
  | .ok a => ∃ t, events.foldlM step s = .ok t ∧ Rel t a
  | .error .failed => ∀ t, events.foldlM step s = .ok t → Lost t
  | .error .misplaced => True

variable {step Lost} {r : Descent α} {f : α → Descent β} {events later : List ι} {i : ι} {s t : σ} {a : α}
  {Rel Rel' : σ → α → Prop} {Rel'' : σ → β → Prop}

theorem Follows.nil (rel : Rel s a) : Follows step Lost (.ok a) [] s Rel := ⟨s, rfl, rel⟩

theorem Follows.misplaced : Follows step Lost (.error .misplaced) events s Rel := trivial

theorem Follows.mono (follows : Follows step Lost r events s Rel) (weaker : ∀ t a, Rel t a → Rel' t a) :
    Follows step Lost r events s Rel' := by
  cases r with
  | ok a =>
      obtain ⟨t, run, rel⟩ := follows
      exact ⟨t, run, weaker t a rel⟩
  | error halt => cases halt <;> exact follows

theorem foldlM_cons_ok (taken : step s i = .ok t) : (i :: later).foldlM step s = later.foldlM step t := by
  rw [List.foldlM_cons, taken]
  rfl

theorem Follows.cons (taken : step s i = .ok t) (follows : Follows step Lost r later t Rel) :
    Follows step Lost r (i :: later) s Rel := by
  cases r with
  | ok a =>
      obtain ⟨u, run, rel⟩ := follows
      exact ⟨u, (foldlM_cons_ok taken).trans run, rel⟩
  | error halt =>
      cases halt with
      | failed => exact fun u run => follows u ((foldlM_cons_ok taken).symm.trans run)
      | misplaced => trivial

/-- The machine fails with the descent. -/
theorem Follows.stopped {e : ε} (stopped : step s i = .error e) :
    Follows step Lost (.error .failed : Descent α) (i :: later) s Rel := by
  intro t run
  rw [List.foldlM_cons, stopped] at run
  cases run

/-- What is lost stays lost. -/
theorem lost_of_run (kept : ∀ s i t, Lost s → step s i = .ok t → Lost t) (lost : Lost s)
    (run : events.foldlM step s = .ok t) : Lost t := by
  induction events generalizing s with
  | nil =>
      cases run
      exact lost
  | cons i later ih =>
      rw [List.foldlM_cons] at run
      cases taken : step s i with
      | error e =>
          rw [taken] at run
          cases run
      | ok u =>
          rw [taken] at run
          exact ih (kept s i u lost taken) run

theorem Follows.lost (kept : ∀ s i t, Lost s → step s i = .ok t → Lost t) (lost : Lost s) :
    Follows step Lost (.error .failed : Descent α) events s Rel :=
  fun _ run => lost_of_run kept lost run

/-- The machine fails with the descent, or is lost. -/
theorem Follows.halted (kept : ∀ s i t, Lost s → step s i = .ok t → Lost t) (halted : ∀ t, step s i = .ok t → Lost t) :
    Follows step Lost (.error .failed : Descent α) (i :: later) s Rel := by
  cases taken : step s i with
  | error e => exact .stopped taken
  | ok t => exact .cons taken (.lost kept (halted t taken))

/-- One descent after another, with the events of the one before those of the other. -/
theorem Follows.bind (kept : ∀ s i t, Lost s → step s i = .ok t → Lost t) (first : Follows step Lost r events s Rel)
    (rest : ∀ t a, Rel t a → Follows step Lost (f a) later t Rel'') :
    Follows step Lost (r >>= f) (events ++ later) s Rel'' := by
  cases r with
  | ok a =>
      obtain ⟨t, run, rel⟩ := first
      have follows := rest t a rel
      change Follows step Lost (f a) (events ++ later) s Rel''
      have after : (events ++ later).foldlM step s = later.foldlM step t := by
        rw [List.foldlM_append, run]
        rfl
      cases found : f a with
      | ok b =>
          rw [found] at follows
          obtain ⟨u, run', rel'⟩ := follows
          exact ⟨u, after.trans run', rel'⟩
      | error halt =>
          rw [found] at follows
          cases halt with
          | failed => exact fun u run' => follows u (after.symm.trans run')
          | misplaced => trivial
  | error halt =>
      cases halt with
      | failed =>
          intro u run
          rw [List.foldlM_append] at run
          cases between : events.foldlM step s with
          | error e =>
              rw [between] at run
              cases run
          | ok t =>
              rw [between] at run
              exact lost_of_run kept (first t between) run
      | misplaced => trivial

/-- One descent after another, that has no events. -/
theorem Follows.ending (kept : ∀ s i t, Lost s → step s i = .ok t → Lost t) (first : Follows step Lost r events s Rel)
    (rest : ∀ t a, Rel t a → Follows step Lost (f a) [] t Rel'') : Follows step Lost (r >>= f) events s Rel'' := by
  have follows := first.bind kept rest
  rwa [List.append_nil] at follows

/-- One more event at the end. -/
theorem Follows.concat (kept : ∀ s i t, Lost s → step s i = .ok t → Lost t) (first : Follows step Lost r events s Rel)
    (last : ∀ t a, Rel t a → ∃ u, step t i = .ok u ∧ Rel' u a) : Follows step Lost r (events ++ [i]) s Rel' := by
  have follows : Follows step Lost (r >>= Except.ok) (events ++ [i]) s Rel' := first.bind kept fun t a rel => by
    obtain ⟨u, taken, rel'⟩ := last t a rel
    exact .cons taken (.nil rel')
  have same : (r >>= Except.ok) = r := bind_pure r
  rwa [same] at follows

end

end Libdap
