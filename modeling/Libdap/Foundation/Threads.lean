import Libdap.Foundation.Locking
import Libdap.Foundation.Run
import Mathlib.Logic.Function.Basic

/-! # Threads that share a state

Each thread makes one call after another. It goes on until it has to take a lock, and from there on when
the lock is free; what lies between is one step. Where every call takes a common lock first and takes the
others only when they are free, no thread ever waits for one of the others.
-/

namespace Libdap.Threads

variable {μ σ ε α ι : Type}

/-- A thread is in no call, about to take a lock, with the locks that it has taken for its call, or it runs
for ever. -/
inductive Thread (μ σ ε α ι : Type) where
  | idle
  | waits (call : ι) (took : List μ) (m : μ) (next : σ → Progress μ σ ε α)
  | runs (call : ι)

structure System (μ σ ε α ι : Type) where
  shared : σ
  thread : Nat → Thread μ σ ε α ι

/-- Where a thread and the state are after a step. Of a thread that runs for ever no more is known. -/
def settle (call : ι) (took : List μ) (s : σ) : Progress μ σ ε α → σ × Thread μ σ ε α ι
  | .done _ s' => (s', .idle)
  | .threw _ s' => (s', .idle)
  | .lock m s' next => (s', .waits call took m next)
  | .never => (s, .runs call)

def System.after (S : System μ σ ε α ι) (t : Nat) (outcome : σ × Thread μ σ ε α ι) : System μ σ ε α ι :=
  ⟨outcome.1, Function.update S.thread t outcome.2⟩

theorem thread_after (S : System μ σ ε α ι) (t : Nat) (outcome : σ × Thread μ σ ε α ι) : (S.after t outcome).thread t = outcome.2 := by
  change Function.update S.thread t outcome.2 t = outcome.2
  rw [Function.update_self]

/-- What a thread does: begin a call, or go on with a lock. -/
inductive Event (ι : Type) where
  | call (t : Nat) (call : ι)
  | take (t : Nat)

variable [Mutexes μ σ] (program : ι → Program μ σ ε α)

inductive Step : System μ σ ε α ι → Event ι → System μ σ ε α ι → Prop where
  | call {S : System μ σ ε α ι} {t : Nat} (c : ι) (free : S.thread t = .idle) :
      Step S (.call t c) (S.after t (settle c [] S.shared ((program c).run S.shared)))
  | take {S : System μ σ ε α ι} {t : Nat} {c : ι} {took : List μ} {m : μ} {next : σ → Progress μ σ ε α}
      (waiting : S.thread t = .waits c took m next) (free : isLocked S.shared m = false) :
      Step S (.take t) (S.after t (settle c (m :: took) (setLocked S.shared m true) (next S.shared)))

/-- Where a thread takes the first lock for its call, the call meets a condition. -/
def AtFirst (condition : σ → ι → Prop) (S : System μ σ ε α ι) : Event ι → Prop
  | .call _ _ => True
  | .take t => ∀ c m next, S.thread t = .waits c [] m next → condition S.shared c

/-- The common lock is held and the one to be taken is free. -/
def Inside (big : μ) (m : μ) (s : σ) : Prop := isLocked s big = true ∧ m ≠ big ∧ isLocked s m = false

/-- Every call takes the common lock and then, from a state that meets the invariant and the condition, takes only
    locks that are free and gives back a state that meets the invariant. -/
structure Exclusive (big : μ) (Inv : σ → Prop) (condition : σ → ι → Prop) (body : ι → Program μ σ ε α) : Prop where
  starts : ∀ c, program c = (Program.LOCK big >>= fun _ => body c)
  free : ∀ s, Inv s → isLocked s big = false
  held : ∀ (s : σ) (m : μ), m = big ∨ isLocked s big = true → isLocked (setLocked s m true) big = true
  serves : ∀ c s, Inv s → condition s c → ((body c).run (setLocked s big true)).Ends (Inside big) fun _ s => Inv s

/-- A thread that is in no call, or waits for the common lock. -/
inductive Outside (big : μ) (body : ι → Program μ σ ε α) : Thread μ σ ε α ι → Prop where
  | idle : Outside big body .idle
  | waits (c : ι) : Outside big body (.waits c [] big fun s => (body c).run (setLocked s big true))

/-- The thread that has the common lock. -/
inductive Holder (big : μ) (Inv : σ → Prop) (s : σ) : Thread μ σ ε α ι → Prop where
  | waits {c : ι} {took : List μ} {m : μ} {next : σ → Progress μ σ ε α} (inside : Inside big m s)
      (ends : (next s).Ends (Inside big) fun _ s => Inv s) : Holder big Inv s (.waits c took m next)
  | runs (c : ι) : Holder big Inv s (.runs c)

/-- Nobody has the common lock, or one thread. -/
inductive Safe (big : μ) (Inv : σ → Prop) (body : ι → Program μ σ ε α) (S : System μ σ ε α ι) : Prop where
  | quiet (inv : Inv S.shared) (outside : ∀ t, Outside big body (S.thread t))
  | busy (t : Nat) (held : isLocked S.shared big = true) (holder : Holder big Inv S.shared (S.thread t))
      (outside : ∀ t' ≠ t, Outside big body (S.thread t'))

variable {program} {big : μ} {Inv : σ → Prop} {condition : σ → ι → Prop} {body : ι → Program μ σ ε α}
  {S S' : System μ σ ε α ι}

theorem outside_after {t t' : Nat} {outcome : σ × Thread μ σ ε α ι} (other : t' ≠ t)
    (outside : Outside big body (S.thread t')) : Outside big body ((S.after t outcome).thread t') := by
  change Outside big body (Function.update S.thread t outcome.2 t')
  rw [Function.update_of_ne other]
  exact outside

/-- The holder goes on. -/
theorem safe_settle {t : Nat} {c : ι} {took : List μ} {s : σ} {p : Progress μ σ ε α} (held : isLocked s big = true)
    (ends : p.Ends (Inside big) fun _ s => Inv s) (outside : ∀ t' ≠ t, Outside big body (S.thread t')) :
    Safe big Inv body (S.after t (settle c took s p)) := by
  cases p with
  | done a s' =>
      apply Safe.quiet ends
      intro t'
      by_cases same : t' = t
      · subst same
        rw [thread_after]
        exact .idle
      · exact outside_after same (outside t' same)
  | threw e s' =>
      apply Safe.quiet ends
      intro t'
      by_cases same : t' = t
      · subst same
        rw [thread_after]
        exact .idle
      · exact outside_after same (outside t' same)
  | lock m s' next =>
      refine .busy t ends.1.1 ?_ fun t' other => outside_after other (outside t' other)
      rw [thread_after]
      exact .waits ends.1 (ends.2 ends.1.2.2)
  | never =>
      refine .busy t held ?_ fun t' other => outside_after other (outside t' other)
      rw [thread_after]
      exact .runs c

theorem Exclusive.step (exclusive : Exclusive program big Inv condition body) {event : Event ι}
    (safe : Safe big Inv body S) (first : AtFirst condition S event) (step : Step program S event S') :
    Safe big Inv body S' := by
  cases step with
  | @call t c free =>
      have begun : settle c [] S.shared ((program c).run S.shared) =
          (S.shared, .waits c [] big fun s => (body c).run (setLocked s big true)) := by
        rw [exclusive.starts c]
        rfl
      rw [begun]
      cases safe with
      | quiet inv outside =>
          refine .quiet inv fun t' => ?_
          by_cases same : t' = t
          · subst same
            rw [thread_after]
            exact .waits c
          · exact outside_after same (outside t')
      | busy t₀ held holder outside =>
          have other : t₀ ≠ t := by
            rintro rfl
            rw [free] at holder
            cases holder
          refine .busy t₀ held ?_ fun t' differs => ?_
          · change Holder big Inv S.shared (Function.update S.thread t _ t₀)
            rw [Function.update_of_ne other]
            exact holder
          · by_cases same : t' = t
            · subst same
              rw [thread_after]
              exact .waits c
            · exact outside_after same (outside t' differs)
  | @take t c took m next waiting free =>
      cases safe with
      | quiet inv outside =>
          have here := outside t
          rw [waiting] at here
          cases here
          have ends := exclusive.serves c S.shared inv (first c big _ waiting)
          exact safe_settle (exclusive.held _ _ (.inl rfl)) ends fun t' _ => outside t'
      | busy t₀ held holder outside =>
          by_cases same : t = t₀
          · subst same
            rw [waiting] at holder
            cases holder with
            | waits inside ends => exact safe_settle (exclusive.held _ _ (.inr held)) ends outside
          · have here := outside t same
            rw [waiting] at here
            cases here
            rw [held] at free
            cases free

/-- No thread waits for a lock other than the common one. -/
theorem Exclusive.never_waits (exclusive : Exclusive program big Inv condition body) {events : List (Event ι)}
    (inv : Inv S.shared) (idle : ∀ t, S.thread t = .idle) (run : Run (Under (AtFirst condition) (Step program)) S events S')
    {t : Nat} {c : ι} {took : List μ} {m : μ} {next : σ → Progress μ σ ε α} (waiting : S'.thread t = .waits c took m next)
    (other : m ≠ big) : isLocked S'.shared m = false := by
  have start : Safe big Inv body S := .quiet inv fun t => by rw [idle t]; exact .idle
  have safe : Safe big Inv body S' := run.keeps (fun safe taken => exclusive.step safe taken.1 taken.2) start
  cases safe with
  | quiet _ outside =>
      have here := outside t
      rw [waiting] at here
      cases here
      exact absurd rfl other
  | busy t₀ _ holder outside =>
      by_cases same : t = t₀
      · subst same
        rw [waiting] at holder
        cases holder with
        | waits inside _ => exact inside.2.2
      · have here := outside t same
        rw [waiting] at here
        cases here
        exact absurd rfl other

end Libdap.Threads
