import Mathlib.Data.List.Basic
import Mathlib.Tactic.Common

/-! # Programs over addressed cells

A program looks at cells and changes them by their addresses, makes new ones, and may throw. The store records
which cells that were there have been used. A program stays beyond an address when it uses no cell below it.
-/

namespace Libdap

/-- The cells, the next free address, and the addresses that have been used. -/
structure CellStore (κ : Type) where
  cells : Nat → κ
  next : Nat
  touched : List Nat

/-- What is thrown leaves the store as it is at that time. -/
abbrev CellProgram (ε κ α : Type) := EStateM ε (CellStore κ) α

namespace CellProgram

variable {ε κ α β : Type}

/-- A call that uses the cells at some addresses. -/
def call (addrs : List Nat) (f : (Nat → κ) → Except ε α × (Nat → κ)) : CellProgram ε κ α := fun s =>
  match (f s.cells).1 with
  | .ok a => .ok a { s with cells := (f s.cells).2, touched := s.touched ++ addrs }
  | .error e => .error e { s with cells := (f s.cells).2, touched := s.touched ++ addrs }

def fetch (addr : Nat) : CellProgram ε κ κ := call [addr] fun cells => (.ok (cells addr), cells)

/-- Each of the cells is changed. -/
def change (addrs : List Nat) (f : κ → κ) : CellProgram ε κ Unit :=
  call addrs fun cells => (.ok (), fun a => if a ∈ addrs then f (cells a) else cells a)

/-- A new cell, and its address. -/
def allocate (c : κ) : CellProgram ε κ Nat := fun s =>
  .ok s.next { s with cells := fun a => if a = s.next then c else s.cells a, next := s.next + 1 }

/-- What is known without the store. -/
def returned : Except ε α → CellProgram ε κ α
  | .ok a => pure a
  | .error e => throw e

/-- The store that is left. -/
def final (p : CellProgram ε κ α) (s : CellStore κ) : CellStore κ :=
  match p s with
  | .ok _ s => s
  | .error _ s => s

/-- What is returned or thrown. -/
def outcome (p : CellProgram ε κ α) (s : CellStore κ) : Except ε α :=
  match p s with
  | .ok a _ => .ok a
  | .error e _ => .error e

/-- The call changes no other cells. -/
def Local (addrs : List Nat) (f : (Nat → κ) → Except ε α × (Nat → κ)) : Prop :=
  ∀ cells, ∀ a ∉ addrs, (f cells).2 a = cells a

/-- Between the two stores no cell below an address has been used. -/
structure FrameBelow (n : Nat) (s s' : CellStore κ) : Prop where
  next : s.next ≤ s'.next
  cells : ∀ a, a < n → s'.cells a = s.cells a
  touched : ∃ more, s'.touched = s.touched ++ more ∧ ∀ a ∈ more, n ≤ a

namespace FrameBelow

variable {n : Nat} {s s' s'' : CellStore κ}

theorem refl (n : Nat) (s : CellStore κ) : FrameBelow n s s := ⟨Nat.le_refl _, fun _ _ => rfl, [], by simp, by simp⟩

theorem trans (first : FrameBelow n s s') (then_ : FrameBelow n s' s'') : FrameBelow n s s'' := by
  obtain ⟨more, touched, beyond⟩ := first.touched
  obtain ⟨more', touched', beyond'⟩ := then_.touched
  constructor
  · exact Nat.le_trans first.next then_.next
  · intro a less
    exact (then_.cells a less).trans (first.cells a less)
  · refine ⟨more ++ more', ?_, ?_⟩
    · rw [touched', touched, List.append_assoc]
    · intro a mem
      rcases List.mem_append.mp mem with mem | mem
      · exact beyond a mem
      · exact beyond' a mem

end FrameBelow

/-- Where all new addresses are, from a number on, the program uses no cell below; what it returns meets a condition. -/
def Beyond (n : Nat) (p : CellProgram ε κ α) (post : α → Prop) : Prop :=
  ∀ s, n ≤ s.next → FrameBelow n s (p.final s) ∧ ∀ a s', p s = .ok a s' → post a

section

variable {n : Nat} {p : CellProgram ε κ α} {f : α → CellProgram ε κ β} {post post' : α → Prop} {s s' : CellStore κ}

theorem final_of_ok {a : α} (ok : p s = .ok a s') : p.final s = s' := by
  rw [final, ok]

theorem final_of_error {e : ε} (error : p s = .error e s') : p.final s = s' := by
  rw [final, error]

theorem bind_of_ok {a : α} (ok : p s = .ok a s') : (p >>= f) s = f a s' := by
  change EStateM.bind p f s = _
  rw [EStateM.bind, ok]

theorem bind_of_error {e : ε} (error : p s = .error e s') : (p >>= f) s = .error e s' := by
  change EStateM.bind p f s = _
  rw [EStateM.bind, error]

theorem start_bind (a : α) (f : α → CellProgram ε κ β) : (pure a : CellProgram ε κ α) >>= f = f a := rfl

theorem throw_bind (e : ε) (f : α → CellProgram ε κ β) : (throw e : CellProgram ε κ α) >>= f = throw e := rfl

theorem beyond_pure {a : α} (holds : post a) : Beyond n (pure a : CellProgram ε κ α) post := by
  intro s _
  refine ⟨.refl n s, ?_⟩
  intro a' s' ok
  cases ok
  exact holds

theorem beyond_throw (e : ε) : Beyond n (throw e : CellProgram ε κ α) post := by
  intro s _
  refine ⟨.refl n s, ?_⟩
  intro a s' ok
  cases ok

theorem beyond_returned {r : Except ε α} (holds : ∀ a, r = .ok a → post a) :
    Beyond n (returned r : CellProgram ε κ α) post := by
  cases r with
  | ok a => exact beyond_pure (holds a rfl)
  | error e => exact beyond_throw e

theorem Beyond.mono (stays : Beyond n p post) (weaker : ∀ a, post a → post' a) : Beyond n p post' := by
  intro s new
  obtain ⟨frame, holds⟩ := stays s new
  exact ⟨frame, fun a s' ok => weaker a (holds a s' ok)⟩

/-- One program after another. -/
theorem beyond_bind {post' : β → Prop} (first : Beyond n p post) (then_ : ∀ a, post a → Beyond n (f a) post') :
    Beyond n (p >>= f) post' := by
  intro s new
  obtain ⟨frame, holds⟩ := first s new
  cases ran : p s with
  | ok a s' =>
      rw [final_of_ok ran] at frame
      obtain ⟨frame', holds'⟩ := then_ a (holds a s' ran) s' (Nat.le_trans new frame.next)
      have same : (p >>= f) s = f a s' := bind_of_ok ran
      refine ⟨?_, ?_⟩
      · rw [final, same]
        exact frame.trans frame'
      · intro b s'' ok
        exact holds' b s'' (same.symm.trans ok)
  | error e s' =>
      rw [final_of_error ran] at frame
      have same : (p >>= f) s = .error e s' := bind_of_error ran
      refine ⟨?_, ?_⟩
      · rw [final_of_error same]
        exact frame
      · intro b s'' ok
        cases same.symm.trans ok

theorem beyond_call {addrs : List Nat} {g : (Nat → κ) → Except ε α × (Nat → κ)} (own : Local addrs g)
    (beyond : ∀ a ∈ addrs, n ≤ a) : Beyond n (call addrs g) fun _ => True := by
  intro s _
  have frame : FrameBelow n s { s with cells := (g s.cells).2, touched := s.touched ++ addrs } := by
    refine ⟨Nat.le_refl _, ?_, addrs, rfl, beyond⟩
    intro a less
    exact own s.cells a fun mem => absurd (beyond a mem) (Nat.not_le.mpr less)
  refine ⟨?_, fun _ _ _ => trivial⟩
  unfold final call
  cases (g s.cells).1 <;> exact frame

theorem beyond_fetch {addr : Nat} (beyond : n ≤ addr) : Beyond n (fetch addr : CellProgram ε κ κ) fun _ => True :=
  beyond_call (fun _ _ _ => rfl) (by simpa using beyond)

theorem beyond_change {addrs : List Nat} {g : κ → κ} (beyond : ∀ a ∈ addrs, n ≤ a) :
    Beyond n (change addrs g : CellProgram ε κ Unit) fun _ => True := by
  apply beyond_call
  · intro cells a other
    exact if_neg other
  · exact beyond

theorem touched_call (addrs : List Nat) (g : (Nat → κ) → Except ε α × (Nat → κ)) (s : CellStore κ) :
    ((call addrs g).final s).touched = s.touched ++ addrs := by
  unfold final call
  cases (g s.cells).1 <;> rfl

/-- What has been used stays recorded. -/
theorem touched_of_bind {a : Nat} (first : a ∈ (p.final s).touched) (then_ : ∀ b, Beyond 0 (f b) fun _ => True) :
    a ∈ ((p >>= f).final s).touched := by
  cases ran : p s with
  | ok b s' =>
      rw [final_of_ok ran] at first
      obtain ⟨more, touched, -⟩ := (then_ b s' (Nat.zero_le _)).1.touched
      have same : (p >>= f) s = f b s' := bind_of_ok ran
      rw [final, same]
      change a ∈ ((f b).final s').touched
      rw [touched]
      exact List.mem_append_left _ first
  | error e s' =>
      rw [final_of_error ran] at first
      rw [final_of_error (bind_of_error ran)]
      exact first

theorem final_bind_of_ok {a : α} (ok : p s = .ok a s') : (p >>= f).final s = (f a).final s' := by
  rw [final, bind_of_ok ok, final]

end

/-- Where an address is the first new one, the program returns. It looks at the cells at some addresses, and changes
none that is there; what it makes is related to the next address that is free. -/
def Allots (n : Nat) (addrs : List Nat) (made : Nat → α → Prop) (p : CellProgram ε κ α) : Prop :=
  ∀ s, s.next = n → ∃ a s', p s = .ok a s' ∧ made s'.next a ∧ n ≤ s'.next ∧ (∀ b, b < n → s'.cells b = s.cells b) ∧
    ∃ more, s'.touched = s.touched ++ more ∧ ∀ b ∈ more, b ∈ addrs

section

variable {n : Nat} {addrs addrs' : List Nat} {made : Nat → α → Prop} {made' : Nat → β → Prop}
  {p : CellProgram ε κ α} {f : α → CellProgram ε κ β}

theorem allots_pure {a : α} (holds : made n a) : Allots n addrs made (pure a : CellProgram ε κ α) := by
  rintro s rfl
  exact ⟨a, s, rfl, holds, Nat.le_refl _, fun _ _ => rfl, [], (List.append_nil _).symm, fun _ mem => absurd mem List.not_mem_nil⟩

theorem allots_bind (first : Allots n addrs made p) (then_ : ∀ m a, n ≤ m → made m a → Allots m addrs made' (f a)) :
    Allots n addrs made' (p >>= f) := by
  intro s start
  obtain ⟨a, s', ran, holds, new, same, more, touched, inside⟩ := first s start
  obtain ⟨b, s'', ran', holds', new', same', more', touched', inside'⟩ := then_ s'.next a new holds s' rfl
  refine ⟨b, s'', (bind_of_ok ran).trans ran', holds', Nat.le_trans new new', ?_, more ++ more', ?_, ?_⟩
  · intro c less
    exact (same' c (Nat.lt_of_lt_of_le less new)).trans (same c less)
  · rw [touched', touched, List.append_assoc]
  · intro c mem
    rcases List.mem_append.mp mem with mem | mem
    · exact inside c mem
    · exact inside' c mem

/-- A copy of a cell. -/
theorem allots_copy {addr : Nat} (mem : addr ∈ addrs) :
    Allots n addrs (fun m a => a = n ∧ m = n + 1) (fetch addr >>= allocate : CellProgram ε κ Nat) := by
  rintro s rfl
  refine ⟨s.next, _, rfl, ⟨rfl, rfl⟩, Nat.le_succ _, ?_, [addr], rfl, ?_⟩
  · intro b less
    exact if_neg (Nat.ne_of_lt less)
  · intro b here
    rw [List.mem_singleton.mp here]
    exact mem

/-- What is made of cells beyond an address is beyond it. -/
theorem Allots.beyond {post : α → Prop} {made : Nat → Nat → α → Prop} (allots : ∀ m, Allots m addrs (made m) p)
    (beyond : ∀ a ∈ addrs, n ≤ a) (weaker : ∀ m l a, n ≤ m → made m l a → post a) : Beyond n p post := by
  intro s new
  obtain ⟨a, s', ran, holds, more, same, touched, eq, inside⟩ := allots s.next s rfl
  constructor
  · rw [final_of_ok ran]
    refine ⟨more, fun b less => same b (Nat.lt_of_lt_of_le less new), touched, eq, ?_⟩
    intro b mem
    exact beyond b (inside b mem)
  · intro a' s'' ok
    cases ran.symm.trans ok
    exact weaker _ _ a new holds

end

end CellProgram

end Libdap
