import Libdap.Foundation.Run

/-! # Programs that take locks

A program runs on a state that other threads share, and stops wherever it has to
take a lock: what comes next is a function of the state in which it gets it. It
may throw, catch what was thrown, and run on and on.

A program is proved correct with its outcomes: `Ends` says what holds when it has
returned or thrown, and what holds wherever it stops to take a lock. The second
matters for threads that run side by side.
-/

namespace Libdap

/-- The mutexes of a state. -/
class Mutexes (μ σ : Type) where
  isLocked : σ → μ → Bool
  setLocked : σ → μ → Bool → σ

export Mutexes (isLocked setLocked)

variable {μ σ ε α β : Type}

/-- How far a program has come. -/
inductive Progress (μ σ ε α : Type) where
  | done (a : α) (s : σ)
  | threw (e : ε) (s : σ)
  -- about to lock a mutex
  | lock (m : μ) (s : σ) (next : σ → Progress μ σ ε α)
  | never

structure Program (μ σ ε α : Type) where
  run : σ → Progress μ σ ε α

namespace Progress

def andThen (p : Progress μ σ ε α) (f : α → Program μ σ ε β) : Progress μ σ ε β :=
  match p with
  | done a s => (f a).run s
  | threw e s => threw e s
  | lock m s next => lock m s fun s => (next s).andThen f
  | never => never

/-- `catch (...) { handler; throw; }` -/
def onThrow (p : Progress μ σ ε α) (handler : Program μ σ ε Unit) : Progress μ σ ε α :=
  match p with
  | done a s => done a s
  | threw e s => (handler.run s).andThen fun _ => ⟨fun s => threw e s⟩
  | lock m s next => lock m s fun s => (next s).onThrow handler
  | never => never

end Progress

namespace Program

instance : Monad (Program μ σ ε) where
  pure a := ⟨fun s => .done a s⟩
  bind p f := ⟨fun s => (p.run s).andThen f⟩

def read (f : σ → α) : Program μ σ ε α := ⟨fun s => .done (f s) s⟩

def write (f : σ → σ) : Program μ σ ε Unit := ⟨fun s => .done () (f s)⟩

def throw (e : ε) : Program μ σ ε α := ⟨fun s => .threw e s⟩

/-- A loop that does not end. -/
def forever : Program μ σ ε α := ⟨fun _ => .never⟩

def onThrow (p : Program μ σ ε α) (handler : Program μ σ ε Unit) : Program μ σ ε α :=
  ⟨fun s => (p.run s).onThrow handler⟩

section

variable [Mutexes μ σ]

def LOCK (m : μ) : Program μ σ ε Unit :=
  ⟨fun s => .lock m s fun s => .done () (setLocked s m true)⟩

def UNLOCK (m : μ) : Program μ σ ε Unit := write fun s => setLocked s m false

/-- Whether the lock was taken. -/
def TRYLOCK (m : μ) : Program μ σ ε Bool :=
  ⟨fun s => if isLocked s m then .done false s else .done true (setLocked s m true)⟩

end

end Program

/-- What a call comes to when nothing else runs: a result and the state after it, unless it
    waits for good. -/
def Progress.alone [Mutexes μ σ] : Progress μ σ ε α → Option (Except ε α × σ)
  | done a s => some (.ok a, s)
  | threw e s => some (.error e, s)
  | lock m s next => if isLocked s m then none else (next s).alone
  | never => none

section

variable [Mutexes μ σ]

/-- The outcomes meet `post`, and where the program is about to take a lock the state meets `stops`. -/
def Progress.Ends (stops : μ → σ → Prop) (post : Except ε α → σ → Prop) : Progress μ σ ε α → Prop
  | done a s => post (.ok a) s
  | threw e s => post (.error e) s
  | lock m s next => stops m s ∧ (isLocked s m = false → (next s).Ends stops post)
  | never => True

namespace Progress

variable {stops : μ → σ → Prop} {post post' : Except ε α → σ → Prop}

theorem Ends.mono {p : Progress μ σ ε α} (ends : p.Ends stops post) (weaker : ∀ r s, post r s → post' r s) :
    p.Ends stops post' := by
  induction p with
  | done a s => exact weaker _ _ ends
  | threw e s => exact weaker _ _ ends
  | lock m s next ih => exact ⟨ends.1, fun free => ih s (ends.2 free)⟩
  | never => trivial

theorem Ends.stops_mono {stops' : μ → σ → Prop} {p : Progress μ σ ε α} (ends : p.Ends stops post)
    (weaker : ∀ m s, stops m s → stops' m s) : p.Ends stops' post := by
  induction p with
  | done a s => exact ends
  | threw e s => exact ends
  | lock m s next ih => exact ⟨weaker m s ends.1, fun free => ih s (ends.2 free)⟩
  | never => trivial

/-- After a first part: what the rest meets, or an error has to meet. -/
def Then (stops : μ → σ → Prop) (post : Except ε β → σ → Prop) (f : α → Program μ σ ε β) : Except ε α → σ → Prop
  | .ok a, s => ((f a).run s).Ends stops post
  | .error e, s => post (.error e) s

/-- After a part in a `try`: what the handler meets before it throws the error again. -/
def Caught (stops : μ → σ → Prop) (post : Except ε α → σ → Prop) (handler : Program μ σ ε Unit) :
    Except ε α → σ → Prop
  | .ok a, s => post (.ok a) s
  | .error e, s => (handler.run s).Ends stops (Then stops post fun _ => ⟨fun s => .threw e s⟩)

theorem ends_andThen {post : Except ε β → σ → Prop} (p : Progress μ σ ε α) (f : α → Program μ σ ε β) :
    (p.andThen f).Ends stops post ↔ p.Ends stops (Then stops post f) := by
  induction p with
  | done a s => rfl
  | threw e s => rfl
  | lock m s next ih => exact and_congr_right fun _ => imp_congr_right fun _ => ih s
  | never => rfl

theorem ends_onThrow (p : Progress μ σ ε α) (handler : Program μ σ ε Unit) :
    (p.onThrow handler).Ends stops post ↔ p.Ends stops (Caught stops post handler) := by
  induction p with
  | done a s => rfl
  | threw e s => exact ends_andThen (handler.run s) _
  | lock m s next ih => exact and_congr_right fun _ => imp_congr_right fun _ => ih s
  | never => rfl

/-- What a call comes to when it runs alone meets what every outcome meets. -/
theorem Ends.alone {p : Progress μ σ ε α} (ends : p.Ends stops post) {r : Except ε α} {s : σ}
    (result : p.alone = some (r, s)) : post r s := by
  induction p with
  | done a s => cases result; exact ends
  | threw e s => cases result; exact ends
  | lock m s next ih =>
      unfold Progress.alone at result
      split at result
      · cases result
      · rename_i free
        exact ih s (ends.2 (Bool.eq_false_iff.mpr free)) result
  | never => cases result

end Progress

namespace Program

variable {stops : μ → σ → Prop}

theorem ends_bind {post : Except ε β → σ → Prop} (p : Program μ σ ε α) (f : α → Program μ σ ε β) (s : σ) :
    ((p >>= f).run s).Ends stops post ↔ (p.run s).Ends stops (Progress.Then stops post f) :=
  Progress.ends_andThen (p.run s) f

theorem ends_onThrow {post : Except ε α → σ → Prop} (p : Program μ σ ε α) (handler : Program μ σ ε Unit) (s : σ) :
    ((p.onThrow handler).run s).Ends stops post ↔ (p.run s).Ends stops (Progress.Caught stops post handler) :=
  Progress.ends_onThrow (p.run s) handler

theorem ends_LOCK {post : Except ε Unit → σ → Prop} (m : μ) (s : σ) :
    ((LOCK m : Program μ σ ε Unit).run s).Ends stops post ↔
      stops m s ∧ (isLocked s m = false → post (.ok ()) (setLocked s m true)) := Iff.rfl

theorem ends_TRYLOCK {post : Except ε Bool → σ → Prop} (m : μ) (s : σ) :
    ((TRYLOCK m : Program μ σ ε Bool).run s).Ends stops post ↔
      if isLocked s m then post (.ok false) s else post (.ok true) (setLocked s m true) := by
  cases locked : isLocked s m with
  | true => simp only [TRYLOCK, locked, ↓reduceIte, Progress.Ends]
  | false => simp only [TRYLOCK, locked, Bool.false_eq_true, ↓reduceIte, Progress.Ends]

theorem ends_done {post : Except ε β → σ → Prop} {p : Program μ σ ε α} {f : α → Program μ σ ε β} {s s' : σ} {a : α}
    (first : p.run s = .done a s') : ((p >>= f).run s).Ends stops post ↔ ((f a).run s').Ends stops post := by
  rw [ends_bind, first]
  rfl

/-- What is read goes on with its value. -/
theorem ends_read {post : Except ε β → σ → Prop} {g : σ → α} {f : α → Program μ σ ε β} {s : σ}
    (rest : ∀ a, g s = a → ((f a).run s).Ends stops post) : ((read g >>= f).run s).Ends stops post :=
  rest (g s) rfl

/-- The rule of two parts: what holds between them when the first has not thrown. -/
theorem ends_seq {post : Except ε β → σ → Prop} {p : Program μ σ ε α} {f : α → Program μ σ ε β} {s : σ}
    (mid : α → σ → Prop)
    (first : (p.run s).Ends stops fun r s =>
      match r with
      | .ok a => mid a s
      | .error e => post (.error e) s)
    (rest : ∀ a s, mid a s → ((f a).run s).Ends stops post) : ((p >>= f).run s).Ends stops post := by
  rw [ends_bind]
  apply first.mono
  intro r s after
  cases r with
  | ok a => exact rest a s after
  | error e => exact after

/-- A loop over a list, with what holds while a part of the list is still to come. -/
theorem ends_forM (Inv : List α → σ → Prop) (thrown : ε → σ → Prop) {body : α → Program μ σ ε Unit}
    (round : ∀ a rest s, Inv (a :: rest) s → ((body a).run s).Ends stops fun r s =>
      match r with
      | .ok _ => Inv rest s
      | .error e => thrown e s) {items : List α} {s : σ} (start : Inv items s) :
    ((forM items body : Program μ σ ε Unit).run s).Ends stops fun r s =>
      match r with
      | .ok _ => Inv [] s
      | .error e => thrown e s := by
  induction items generalizing s with
  | nil => exact start
  | cons a items ih =>
      rw [List.forM_cons]
      refine ends_seq (fun _ s => Inv items s) ((round a items s start).mono fun r s after => ?_) fun _ s after => ih after
      cases r with
      | ok _ => exact after
      | error _ => exact after

/-- A program that keeps an invariant, whatever it comes to. -/
structure Keeps (stops : μ → σ → Prop) (Inv : σ → Prop) (p : Program μ σ ε α) : Prop where
  ends : ∀ s, Inv s → (p.run s).Ends stops fun _ s => Inv s

variable {Inv : σ → Prop}

theorem keeps_pure (a : α) : Keeps stops Inv (pure a : Program μ σ ε α) := ⟨fun _ inv => inv⟩

theorem keeps_read (f : σ → α) : Keeps stops Inv (read f : Program μ σ ε α) := ⟨fun _ inv => inv⟩

theorem keeps_throw (e : ε) : Keeps stops Inv (throw e : Program μ σ ε α) := ⟨fun _ inv => inv⟩

theorem keeps_forever : Keeps stops Inv (forever : Program μ σ ε α) := ⟨fun _ _ => trivial⟩

theorem keeps_write {f : σ → σ} (kept : ∀ s, Inv s → Inv (f s)) : Keeps stops Inv (write f : Program μ σ ε Unit) :=
  ⟨kept⟩

theorem keeps_bind {p : Program μ σ ε α} {f : α → Program μ σ ε β} (first : Keeps stops Inv p)
    (rest : ∀ a, Keeps stops Inv (f a)) : Keeps stops Inv (p >>= f) := by
  constructor
  intro s inv
  refine ends_seq (fun _ s => Inv s) ((first.ends s inv).mono fun r s inv => ?_) fun a s inv => (rest a).ends s inv
  cases r with
  | ok _ => exact inv
  | error _ => exact inv

/-- What holds after a part in a `try` in any case also holds after it has been caught. -/
theorem Keeps.caught {p : Program μ σ ε α} {handler : Program μ σ ε Unit} {s : σ} (handled : Keeps stops Inv handler)
    (body : (p.run s).Ends stops fun _ s => Inv s) : ((p.onThrow handler).run s).Ends stops fun _ s => Inv s := by
  rw [ends_onThrow]
  apply body.mono
  intro r s inv
  cases r with
  | ok a => exact inv
  | error e =>
      apply (handled.ends s inv).mono
      intro r s inv
      cases r with
      | ok _ => exact inv
      | error e' => exact inv

theorem keeps_onThrow {p : Program μ σ ε α} {handler : Program μ σ ε Unit} (body : Keeps stops Inv p)
    (handled : Keeps stops Inv handler) : Keeps stops Inv (p.onThrow handler) :=
  ⟨fun s inv => handled.caught (body.ends s inv)⟩

theorem keeps_forM {body : α → Program μ σ ε Unit} (items : List α) (round : ∀ a ∈ items, Keeps stops Inv (body a)) :
    Keeps stops Inv (forM items body : Program μ σ ε Unit) := by
  induction items with
  | nil => exact keeps_pure ()
  | cons a items ih =>
      rw [List.forM_cons]
      exact keeps_bind (round a List.mem_cons_self) fun _ => ih fun b mem => round b (List.mem_cons_of_mem a mem)

theorem keeps_LOCK {m : μ} (stopped : ∀ s, Inv s → stops m s) (kept : ∀ s, Inv s → Inv (setLocked s m true)) :
    Keeps stops Inv (LOCK m : Program μ σ ε Unit) := ⟨fun s inv => ⟨stopped s inv, fun _ => kept s inv⟩⟩

theorem keeps_TRYLOCK {m : μ} (kept : ∀ s, Inv s → Inv (setLocked s m true)) :
    Keeps stops Inv (TRYLOCK m : Program μ σ ε Bool) := by
  constructor
  intro s inv
  rw [ends_TRYLOCK]
  split
  · exact inv
  · exact kept s inv

theorem keeps_ite {condition : Prop} [Decidable condition] {p q : Program μ σ ε α} (yes : Keeps stops Inv p)
    (no : Keeps stops Inv q) : Keeps stops Inv (if condition then p else q) := by
  split
  · exact yes
  · exact no

end Program

end

end Libdap
