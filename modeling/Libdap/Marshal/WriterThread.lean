import Libdap.Foundation.Ints
import Mathlib.Data.List.Basic
import Mathlib.Logic.Relation

/-! # Writing with a child thread

A marshaller writes to its stream inside sections that a `Locker` guards: the
lock is taken, the main thread waits until there is no child, and then it writes
directly, or hands a buffer to a new child thread, or both. The child takes the
lock, writes the buffer, and resets the count on its way out (`ChildLocker`).
Here is what every schedule of these steps does, with a wait that may also end
without a signal.
-/

namespace Libdap.Marshal

open Ints

/-- `write_args`: the buffer from where it is to be written, and `d_num`. -/
structure WriteArgs where
  buf : List UInt8
  num : Int
  deriving Repr, DecidableEq

/-- What `start_thread` makes of a number of octets, which it takes as an
    `unsigned int` and keeps as an `int`. -/
def kept (bytes : Nat) : Int := i32 (bytes % 2 ^ 32 : Nat)

def startThread (buf : List UInt8) (bytes : Nat) : WriteArgs := ⟨buf, kept bytes⟩

/-- One locked section of a `put_` method: what it writes itself, and the buffer
    and number of octets it then leaves to a child. -/
structure Section where
  direct : List UInt8
  child : Option (List UInt8 × Nat)
  deriving Repr, DecidableEq

def Section.write (bytes : List UInt8) : Section := ⟨bytes, none⟩

def Section.handOver (buf : List UInt8) (bytes : Nat) : Section := ⟨[], some (buf, bytes)⟩

/-- The octets that a section is to put on the stream. -/
def Section.octets (s : Section) : List UInt8 :=
  s.direct ++ match s.child with
    | none => []
    | some (buf, bytes) => buf.take bytes

/-- The octets that get there, when no child is given a negative number. -/
def Section.written (s : Section) : List UInt8 :=
  s.direct ++ match s.child with
    | none => []
    | some (buf, bytes) => buf.take (kept bytes).toNat

@[simp]
theorem Section.written_write (bytes : List UInt8) : (write bytes).written = bytes :=
  List.append_nil bytes

@[simp]
theorem Section.written_handOver (buf : List UInt8) (bytes : Nat) :
    (handOver buf bytes).written = buf.take (kept bytes).toNat := List.nil_append _

/-- The numbers of octets that a section hands over, none or one. -/
def Section.handedOver (s : Section) : Option Nat := s.child.map Prod.snd

/-- What a run of sections leaves on the stream. A negative number fails the stream,
    and nothing that comes later is written. -/
def emit (sections : List Section) : Option (List UInt8) :=
  if ∀ sec ∈ sections, ∀ n ∈ sec.handedOver, 0 ≤ kept n then some (sections.flatMap Section.written)
  else none

/-- Where the main thread is. -/
inductive Main where
  | idle
  | checking (s : Section)
  | waiting (s : Section)
  | woken (s : Section)
  | writing (bytes : List UInt8) (child : Option (List UInt8 × Nat))
  | starting (buf : List UInt8) (bytes : Nat)
  | unlocking
  deriving Repr, DecidableEq

/-- Where a child thread is. -/
inductive Child where
  | started (args : WriteArgs)
  | writing (bytes : List UInt8)
  | cleared
  | signalled
  | finished
  deriving Repr, DecidableEq

structure State where
  out : List UInt8
  good : Bool
  count : Nat
  locked : Bool
  main : Main
  todo : List Section
  children : List Child
  deriving Repr, DecidableEq

/-- Before the first call. -/
def State.start (sections : List Section) : State := ⟨[], true, 0, false, .idle, sections, []⟩

/-- A stream that has failed takes nothing any more. -/
def put (good : Bool) (out : List UInt8) (b : UInt8) : List UInt8 := if good then out ++ [b] else out

theorem put_good {good : Bool} (isGood : good = true) (out : List UInt8) (b : UInt8) :
    put good out b = out ++ [b] := if_pos isGood

/-- One step of the main thread or of a child. -/
inductive Step : State → State → Prop
  | lock {out good count s todo children} :
      Step ⟨out, good, count, false, .idle, s :: todo, children⟩
        ⟨out, good, count, true, .checking s, todo, children⟩
  | wait {out good count locked s todo children} : count ≠ 0 →
      Step ⟨out, good, count, locked, .checking s, todo, children⟩
        ⟨out, good, count, false, .waiting s, todo, children⟩
  | relock {out good count s todo children} :
      Step ⟨out, good, count, false, .woken s, todo, children⟩
        ⟨out, good, count, true, .checking s, todo, children⟩
  | enter {out good locked s todo children} :
      Step ⟨out, good, 0, locked, .checking s, todo, children⟩
        ⟨out, good, 0, locked, .writing s.direct s.child, todo, children⟩
  | write {out good count locked b bytes child todo children} :
      Step ⟨out, good, count, locked, .writing (b :: bytes) child, todo, children⟩
        ⟨put good out b, good, count, locked, .writing bytes child, todo, children⟩
  | written {out good count locked todo children} :
      Step ⟨out, good, count, locked, .writing [] none, todo, children⟩
        ⟨out, good, count, locked, .unlocking, todo, children⟩
  | increment {out good count locked buf bytes todo children} :
      Step ⟨out, good, count, locked, .writing [] (some (buf, bytes)), todo, children⟩
        ⟨out, good, count + 1, locked, .starting buf bytes, todo, children⟩
  | start {out good count locked buf bytes todo children} :
      Step ⟨out, good, count, locked, .starting buf bytes, todo, children⟩
        ⟨out, good, count, locked, .unlocking, todo, children ++ [.started (startThread buf bytes)]⟩
  | unlock {out good count locked todo children} :
      Step ⟨out, good, count, locked, .unlocking, todo, children⟩
        ⟨out, good, count, false, .idle, todo, children⟩
  | childLock {out good count main todo pre post args} : 0 ≤ args.num →
      Step ⟨out, good, count, false, main, todo, pre ++ .started args :: post⟩
        ⟨out, good, count, true, main, todo, pre ++ .writing (args.buf.take args.num.toNat) :: post⟩
  | childFail {out good count main todo pre post args} : args.num < 0 →
      Step ⟨out, good, count, false, main, todo, pre ++ .started args :: post⟩
        ⟨out, false, count, true, main, todo, pre ++ .writing [] :: post⟩
  | childWrite {out good count locked main todo pre post b bytes} :
      Step ⟨out, good, count, locked, main, todo, pre ++ .writing (b :: bytes) :: post⟩
        ⟨put good out b, good, count, locked, main, todo, pre ++ .writing bytes :: post⟩
  | clear {out good count locked main todo pre post} :
      Step ⟨out, good, count, locked, main, todo, pre ++ .writing [] :: post⟩
        ⟨out, good, 0, locked, main, todo, pre ++ .cleared :: post⟩
  | signal {out good count locked s todo pre post} :
      Step ⟨out, good, count, locked, .waiting s, todo, pre ++ .cleared :: post⟩
        ⟨out, good, count, locked, .woken s, todo, pre ++ .signalled :: post⟩
  | signalNobody {out good count locked main todo pre post} : (∀ s, main ≠ .waiting s) →
      Step ⟨out, good, count, locked, main, todo, pre ++ .cleared :: post⟩
        ⟨out, good, count, locked, main, todo, pre ++ .signalled :: post⟩
  | childUnlock {out good count locked main todo pre post} :
      Step ⟨out, good, count, locked, main, todo, pre ++ .signalled :: post⟩
        ⟨out, good, count, false, main, todo, pre ++ .finished :: post⟩

/-- A wait on the condition variable that ends without a signal. -/
inductive Wakeup : State → State → Prop
  | spurious {out good count locked s todo children} :
      Wakeup ⟨out, good, count, locked, .waiting s, todo, children⟩
        ⟨out, good, count, locked, .woken s, todo, children⟩

/-- A schedule takes either kind of step. -/
def Schedule : State → State → Prop := Relation.ReflTransGen fun s t => Step s t ∨ Wakeup s t

namespace Main

/-- The main thread has the lock. -/
@[simp]
def holds : Main → Bool
  | .checking _ | .writing _ _ | .starting _ _ | .unlocking => true
  | .idle | .waiting _ | .woken _ => false

/-- What the main thread has still to write or to hand over of its section. -/
@[simp]
def pending : Main → List UInt8
  | .idle | .unlocking => []
  | .checking s | .waiting s | .woken s => s.written
  | .writing bytes child => (Section.mk bytes child).written
  | .starting buf bytes => buf.take (kept bytes).toNat

/-- The number of children that the count is ahead of. -/
@[simp]
def ahead : Main → Nat
  | .starting _ _ => 1
  | .idle | .checking _ | .waiting _ | .woken _ | .writing _ _ | .unlocking => 0

/-- The number of octets that it may hand over. -/
@[simp]
def handOver : Main → Option Nat
  | .checking s | .waiting s | .woken s => s.handedOver
  | .writing bytes child => (Section.mk bytes child).handedOver
  | .starting _ bytes => some bytes
  | .idle | .unlocking => none

end Main

namespace Child

/-- The child has the lock. -/
@[simp]
def holds : Child → Bool
  | .writing _ | .cleared | .signalled => true
  | .started _ | .finished => false

/-- The child is counted. -/
@[simp]
def live : Child → Bool
  | .started _ | .writing _ => true
  | .cleared | .signalled | .finished => false

@[simp]
def pending : Child → List UInt8
  | .started args => args.buf.take args.num.toNat
  | .writing bytes => bytes
  | .cleared | .signalled | .finished => []

/-- The child is at its write. -/
def writes : Child → Bool
  | .writing _ => true
  | .started _ | .cleared | .signalled | .finished => false

end Child

/-- What holds in every state of every schedule: the lock has one holder, the count
    is the number of children that have not written yet and at most one, it is zero
    while the main thread writes, and nothing has been lost or overtaken. -/
structure Invariant (total : List UInt8) (s : State) : Prop where
  good : s.good = true
  keeps : (∀ sec ∈ s.todo, ∀ n ∈ sec.handedOver, 0 ≤ kept n) ∧ ∀ n ∈ s.main.handOver, 0 ≤ kept n
  nums : ∀ args, Child.started args ∈ s.children → 0 ≤ args.num
  holders : (if s.main.holds then 1 else 0) + s.children.countP Child.holds = if s.locked then 1 else 0
  counted : s.count = s.children.countP Child.live + s.main.ahead
  single : s.count ≤ 1
  alone : ∀ bytes child, s.main = .writing bytes child → s.count = 0
  wakes : ∀ sec, s.main = .waiting sec → ∃ c ∈ s.children, c.live ∨ c = .cleared
  order : s.out ++ (s.children.flatMap Child.pending ++
    (s.main.pending ++ s.todo.flatMap Section.written)) = total

theorem pending_of_none_live {children : List Child} (none : children.countP Child.live = 0) :
    children.flatMap Child.pending = [] := by
  rw [List.countP_eq_zero] at none
  rw [List.flatMap_eq_nil_iff]
  intro c mem
  have dead := none c mem
  cases c with
  | started args => exact absurd rfl dead
  | writing bytes => exact absurd rfl dead
  | cleared => rfl
  | signalled => rfl
  | finished => rfl

variable {total : List UInt8}

theorem countP_same {p : Child → Bool} {pre post : List Child} {c d : Child} (same : p c = p d) :
    (pre ++ c :: post).countP p = (pre ++ d :: post).countP p := by
  simp only [List.countP_append, List.countP_cons, same]

theorem countP_more {p : Child → Bool} {pre post : List Child} {c d : Child} (yes : p c = true)
    (no : p d = false) : (pre ++ c :: post).countP p = (pre ++ d :: post).countP p + 1 := by
  simp [List.countP_append, yes, no]
  omega

theorem of_mem_replaced {pre post : List Child} {c d e : Child} (mem : e ∈ pre ++ d :: post)
    (other : e ≠ d) : e ∈ pre ++ c :: post := by
  simp only [List.mem_append, List.mem_cons, other, false_or] at mem ⊢
  exact mem.imp id Or.inr

/-- While a counted child is there, nothing else is counted. -/
theorem none_live {count ahead : Nat} {pre post : List Child} {c : Child} (live : c.live = true)
    (counted : count = (pre ++ c :: post).countP Child.live + ahead) (single : count ≤ 1) :
    pre.countP Child.live = 0 ∧ post.countP Child.live = 0 ∧ ahead = 0 := by
  simp only [List.countP_append, List.countP_cons, live, if_true] at counted
  omega

theorem only_holder {locked : Bool} {others : Nat}
    (holders : others + 1 = if locked then 1 else 0) : others = 0 := by
  split at holders <;> omega

theorem pending_increment (buf : List UInt8) (bytes : Nat) :
    (Main.writing [] (some (buf, bytes))).pending = (Main.starting buf bytes).pending :=
  List.nil_append _

theorem Invariant.step {s t : State} (inv : Invariant total s) (step : Step s t) :
    Invariant total t := by
  obtain ⟨good, keeps, nums, holders, counted, single, alone, wakes, order⟩ := inv
  cases step with
  | lock =>
      exact ⟨good, ⟨fun sec mem => keeps.1 sec (List.mem_cons_of_mem _ mem),
        keeps.1 _ List.mem_cons_self⟩, nums, by simpa using holders, counted, single,
        by simp, by simp, by simpa using order⟩
  | wait busy =>
      have live : 0 < List.countP Child.live _ := Nat.pos_of_ne_zero (Eq.trans_ne counted.symm busy)
      obtain ⟨c, mem, isLive⟩ := List.countP_pos_iff.mp live
      exact ⟨good, keeps, nums, by simpa using only_holder ((Nat.add_comm _ _).trans holders), counted,
        single, by simp, fun _ _ => ⟨c, mem, .inl isLive⟩, order⟩
  | relock =>
      exact ⟨good, keeps, nums, by simpa using holders, counted, single, by simp,
        by simp, order⟩
  | enter =>
      exact ⟨good, keeps, nums, holders, counted, single, by simp, by simp, order⟩
  | write =>
      have idle := alone _ _ rfl
      have free := pending_of_none_live (Nat.eq_zero_of_add_eq_zero_right (counted.symm.trans idle))
      simp only [free, List.nil_append] at order
      exact ⟨good, keeps, nums, holders, counted, single, fun _ _ _ => idle, by simp,
        by simpa [put_good good, free, Section.written] using order⟩
  | written =>
      exact ⟨good, ⟨keeps.1, by simp⟩, nums, holders, counted, single, by simp,
        by simp, by simpa [Section.written] using order⟩
  | increment =>
      have idle := alone _ _ rfl
      exact ⟨good, keeps, nums, holders, by simpa using counted,
        Nat.succ_le_succ (Nat.le_zero.mpr idle), by simp, by simp,
        by simpa only [pending_increment] using order⟩
  | start =>
      refine ⟨good, ⟨keeps.1, by simp⟩, ?_, ?_, ?_, single, by simp, by simp, ?_⟩
      · intro args mem
        obtain old | new := List.mem_append.mp mem
        · exact nums args old
        · cases List.mem_singleton.mp new
          exact keeps.2 _ rfl
      · simpa using holders
      · simpa using counted
      · simpa [startThread] using order
  | unlock =>
      exact ⟨good, ⟨keeps.1, by simp⟩, nums,
        by simpa using only_holder ((Nat.add_comm _ _).trans holders), counted, single, by simp,
        by simp, order⟩
  | childLock natural =>
      refine ⟨good, keeps, ?_, ?_, ?_, single, alone, ?_, by simpa using order⟩
      · intro args mem
        exact nums args (of_mem_replaced mem (by simp))
      · exact (congrArg (_ + ·) (countP_more (by rfl) (by rfl))).trans (congrArg Nat.succ holders)
      · exact counted.trans (congrArg (· + _) (countP_same (by rfl)))
      · intro sec waits
        exact ⟨_, List.mem_append_right _ List.mem_cons_self, .inl rfl⟩
  | childFail negative =>
      exact absurd (nums _ (by simp)) (not_le.mpr negative)
  | childWrite =>
      have before := pending_of_none_live (none_live rfl counted single).1
      refine ⟨good, keeps, ?_, ?_, ?_, single, alone, ?_, by simpa [before, put_good good] using order⟩
      · intro args mem
        exact nums args (of_mem_replaced mem (by simp))
      · exact (congrArg (_ + ·) (countP_same (by rfl))).trans holders
      · exact counted.trans (congrArg (· + _) (countP_same (by rfl)))
      · intro sec waits
        exact ⟨_, List.mem_append_right _ List.mem_cons_self, .inl rfl⟩
  | clear =>
      have others := none_live rfl counted single
      refine ⟨good, keeps, ?_, ?_, ?_, Nat.zero_le _, fun _ _ _ => rfl, ?_, by simpa using order⟩
      · intro args mem
        exact nums args (of_mem_replaced mem (by simp))
      · exact (congrArg (_ + ·) (countP_same (by rfl))).trans holders
      · simp only [List.countP_append, List.countP_cons, others]
        simp
      · intro sec waits
        exact ⟨_, List.mem_append_right _ List.mem_cons_self, .inr rfl⟩
  | signal =>
      refine ⟨good, keeps, ?_, ?_, ?_, single, by simp, by simp, by simpa using order⟩
      · intro args mem
        exact nums args (of_mem_replaced mem (by simp))
      · exact (congrArg (_ + ·) (countP_same (by rfl))).trans holders
      · exact counted.trans (congrArg (· + _) (countP_same (by rfl)))
  | signalNobody nobody =>
      refine ⟨good, keeps, ?_, ?_, ?_, single, alone, ?_, by simpa using order⟩
      · intro args mem
        exact nums args (of_mem_replaced mem (by simp))
      · exact (congrArg (_ + ·) (countP_same (by rfl))).trans holders
      · exact counted.trans (congrArg (· + _) (countP_same (by rfl)))
      · intro sec waits
        exact absurd waits (nobody sec)
  | childUnlock =>
      refine ⟨good, keeps, ?_, ?_, ?_, single, alone, ?_, by simpa using order⟩
      · intro args mem
        exact nums args (of_mem_replaced mem (by simp))
      · exact only_holder ((congrArg (_ + ·) (countP_more (by rfl) (by rfl))).symm.trans holders)
      · exact counted.trans (congrArg (· + _) (countP_same (by rfl)))
      · intro sec waits
        obtain ⟨c, mem, alive⟩ := wakes sec waits
        exact ⟨c, of_mem_replaced mem (by rintro rfl; simp at alive), alive⟩

theorem Invariant.wakeup {s t : State} (inv : Invariant total s) (wakeup : Wakeup s t) :
    Invariant total t := by
  cases wakeup
  exact ⟨inv.good, inv.keeps, inv.nums, inv.holders, inv.counted, inv.single, by simp, by simp,
    inv.order⟩

theorem Invariant.start {sections : List Section}
    (keeps : ∀ sec ∈ sections, ∀ n ∈ sec.handedOver, 0 ≤ kept n) :
    Invariant (sections.flatMap Section.written) (State.start sections) :=
  ⟨rfl, ⟨keeps, by simp [State.start]⟩, by simp [State.start], rfl, rfl, Nat.zero_le _,
    by simp [State.start], by simp [State.start], rfl⟩

/-- Every schedule keeps the invariant. -/
theorem Invariant.schedule {s t : State} (inv : Invariant total s) (schedule : Schedule s t) :
    Invariant total t := by
  induction schedule with
  | refl => exact inv
  | tail _ last before =>
      cases last with
      | inl step => exact before.step step
      | inr wakeup => exact before.wakeup wakeup

/-- Nothing is left to do, and every child has ended. -/
def State.Finished (s : State) : Prop :=
  s.main = .idle ∧ s.todo = [] ∧ ∀ c ∈ s.children, c = .finished

theorem Invariant.out_of_finished {s : State} (inv : Invariant total s) (finished : s.Finished) :
    s.out = total := by
  obtain ⟨idle, nothing, ended⟩ := finished
  have none : s.children.flatMap Child.pending = [] := by
    rw [List.flatMap_eq_nil_iff]
    intro c mem
    rw [ended c mem]
    rfl
  simpa [idle, nothing, none] using inv.order

/-- A state where no thread can take a step is the end: there is no deadlock. -/
theorem Invariant.finished {s : State} (inv : Invariant total s) (stuck : ∀ t, ¬Step s t) :
    s.Finished := by
  obtain ⟨out, good, count, locked, main, todo, children⟩ := s
  obtain ⟨-, -, nums, holders, -, -, -, wakes, -⟩ := inv
  have unheld : ∀ c ∈ children, c.holds = false := by
    intro c mem
    obtain ⟨pre, post, rfl⟩ := List.append_of_mem mem
    cases c with
    | started args => rfl
    | writing bytes =>
        cases bytes with
        | nil => exact absurd .clear (stuck _)
        | cons b bytes => exact absurd .childWrite (stuck _)
    | cleared =>
        cases main with
        | waiting sec => exact absurd .signal (stuck _)
        | _ => exact absurd (.signalNobody (by simp)) (stuck _)
    | signalled => exact absurd .childUnlock (stuck _)
    | finished => rfl
  have noHolder : main.holds = false := by
    cases main with
    | checking sec =>
        cases count with
        | zero => exact absurd .enter (stuck _)
        | succ n => exact absurd (.wait (Nat.succ_ne_zero n)) (stuck _)
    | writing bytes child =>
        match bytes, child with
        | b :: bytes, child => exact absurd .write (stuck _)
        | [], none => exact absurd .written (stuck _)
        | [], some (buf, n) => exact absurd .increment (stuck _)
    | starting buf bytes => exact absurd .start (stuck _)
    | unlocking => exact absurd .unlock (stuck _)
    | idle => rfl
    | waiting sec => rfl
    | woken sec => rfl
  have unlocked : locked = false := by
    have none : children.countP Child.holds = 0 :=
      List.countP_eq_zero.mpr fun c mem => Bool.eq_false_iff.mp (unheld c mem)
    simp only [noHolder, none] at holders
    cases locked with
    | false => rfl
    | true => simp at holders
  subst unlocked
  have ended : ∀ c ∈ children, c = .finished := by
    intro c mem
    have free := unheld c mem
    cases c with
    | started args =>
        have natural := nums args mem
        obtain ⟨pre, post, rfl⟩ := List.append_of_mem mem
        exact absurd (.childLock natural) (stuck _)
    | finished => rfl
    | _ => simp at free
  cases main with
  | idle =>
      cases todo with
      | nil => exact ⟨rfl, rfl, ended⟩
      | cons sec todo => exact absurd .lock (stuck _)
  | woken sec => exact absurd .relock (stuck _)
  | waiting sec =>
      obtain ⟨c, mem, alive⟩ := wakes sec rfl
      simp [ended c mem] at alive
  | _ => simp at noHolder

/-! Each step brings the end nearer, so a run is only as long as its wakeups make it. -/

def handOverRank : Option (List UInt8 × Nat) → Nat
  | none => 2
  | some (buf, _) => 10 + buf.length

def Main.rank : Main → Nat
  | .idle => 0
  | .unlocking => 1
  | .starting buf _ => 9 + buf.length
  | .writing bytes child => handOverRank child + bytes.length
  | .waiting s => handOverRank s.child + s.direct.length + 1
  | .checking s => handOverRank s.child + s.direct.length + 2
  | .woken s => handOverRank s.child + s.direct.length + 3

def Child.rank : Child → Nat
  | .started args => 7 + args.buf.length
  | .writing bytes => 6 + bytes.length
  | .cleared => 5
  | .signalled => 1
  | .finished => 0

def State.rank (s : State) : Nat :=
  s.main.rank + (s.todo.map fun sec => (Main.woken sec).rank).sum + (s.children.map Child.rank).sum

theorem rank_lt {s t : State} (step : Step s t) : t.rank < s.rank := by
  cases step <;> simp [State.rank, Main.rank, handOverRank, Child.rank, startThread] <;> omega

/-- From any state of a run, the end can be reached. -/
theorem Invariant.finishes {s : State} (inv : Invariant total s) :
    ∃ t, Schedule s t ∧ t.Finished := by
  induction bound : s.rank using Nat.strong_induction_on generalizing s with
  | _ n ih =>
      by_cases stuck : ∀ t, ¬Step s t
      · exact ⟨s, .refl, inv.finished stuck⟩
      · push Not at stuck
        obtain ⟨next, step⟩ := stuck
        obtain ⟨t, rest, finished⟩ := ih _ (bound ▸ rank_lt step) (inv.step step) rfl
        exact ⟨t, .head (.inl step) rest, finished⟩

/-- What a reader of the output may rely on in a state of a run that is to write
    `total`. -/
structure InOrder (total : List UInt8) (s : State) : Prop where
  written : s.out <+: total
  oneWriter : s.children.countP Child.writes ≤ 1
  alone : ∀ bytes child, s.main = .writing bytes child →
    s.count = 0 ∧ s.children.countP Child.writes = 0
  complete : s.Finished → s.out = total
  deadlockFree : (∀ t, ¬Step s t) → s.Finished
  finishes : ∃ t, Schedule s t ∧ t.Finished

theorem Invariant.writers_le {s : State} (inv : Invariant total s) :
    s.children.countP Child.writes ≤ s.count := by
  have fewer : s.children.countP Child.writes ≤ s.children.countP Child.live := by
    apply List.countP_mono_left
    intro c _ writes
    cases c with
    | writing bytes => rfl
    | _ => simp [Child.writes] at writes
  rw [inv.counted]
  omega

theorem Invariant.inOrder {s : State} (inv : Invariant total s) : InOrder total s where
  written := ⟨_, inv.order⟩
  oneWriter := inv.writers_le.trans inv.single
  alone := by
    intro bytes child writing
    have idle := inv.alone bytes child writing
    exact ⟨idle, Nat.le_zero.mp (idle ▸ inv.writers_le)⟩
  complete := inv.out_of_finished
  deadlockFree := inv.finished
  finishes := inv.finishes

/-- Whatever the schedule, the stream gets what the sections leave one by one. -/
theorem schedule_emits {sections : List Section} {bytes : List UInt8}
    (emits : emit sections = some bytes) {s : State} (schedule : Schedule (State.start sections) s) :
    InOrder bytes s := by
  unfold emit at emits
  split at emits
  · rename_i keeps
    cases emits
    exact ((Invariant.start keeps).schedule schedule).inOrder
  · cases emits

/-- A number of octets that `start_thread` keeps as it is. -/
def Keeps (bytes : Nat) : Prop := bytes < 2 ^ 31

theorem kept_of_keeps {bytes : Nat} (keeps : Keeps bytes) : kept bytes = bytes := by
  simp only [Keeps] at keeps
  rw [kept, Nat.mod_eq_of_lt (by omega), i32_ofNat_of_lt keeps]

theorem Section.written_eq_octets {s : Section} (keeps : ∀ n ∈ s.handedOver, Keeps n) :
    s.written = s.octets := by
  obtain ⟨direct, child⟩ := s
  cases child with
  | none => rfl
  | some handed =>
      simp only [Section.written, Section.octets, kept_of_keeps (keeps _ rfl), Int.toNat_natCast]

/-- Sections whose numbers are kept leave all of their octets. -/
theorem emit_of_keeps {sections : List Section}
    (keeps : ∀ sec ∈ sections, ∀ n ∈ sec.handedOver, Keeps n) :
    emit sections = some (sections.flatMap Section.octets) := by
  have natural : ∀ sec ∈ sections, ∀ n ∈ sec.handedOver, 0 ≤ kept n := by
    intro sec mem n handed
    rw [kept_of_keeps (keeps sec mem n handed)]
    exact Int.natCast_nonneg n
  rw [emit, if_pos natural]
  exact congrArg some (List.flatMap_congr fun sec mem => Section.written_eq_octets (keeps sec mem))

/-- Octets written directly, and a buffer of a number that is kept. -/
theorem emit_write_handOver {direct buf : List UInt8} {bytes : Nat} (keeps : Keeps bytes) :
    emit [.write direct, .handOver buf bytes] = some (direct ++ buf.take bytes) := by
  rw [emit_of_keeps (by simp [Section.write, Section.handOver, Section.handedOver, keeps])]
  simp [Section.write, Section.handOver, Section.octets]

/-- A section that writes octets itself before it leaves others to a child. -/
theorem emit_section {bytes : Nat} (keeps : Keeps bytes) (direct buf : List UInt8) :
    emit [⟨direct, some (buf, bytes)⟩] = some (direct ++ buf.take bytes) := by
  rw [emit_of_keeps (by simp [Section.handedOver, keeps])]
  simp [Section.octets]

theorem emit_handOver {bytes : Nat} (keeps : Keeps bytes) (buf : List UInt8) :
    emit [.handOver buf bytes] = some (buf.take bytes) := emit_section keeps [] buf

theorem emit_write (direct : List UInt8) : emit [.write direct] = some direct := by
  rw [emit_of_keeps (by simp [Section.write, Section.handedOver])]
  simp [Section.write, Section.octets]

/-- A number that becomes another one leaves that many octets. -/
theorem emit_handOver_kept {buf : List UInt8} {bytes k : Nat} (becomes : kept bytes = k) :
    emit [.handOver buf bytes] = some (buf.take k) := by
  have natural : ∀ sec ∈ [Section.handOver buf bytes], ∀ n ∈ sec.handedOver, 0 ≤ kept n := by
    intro sec mem n handed
    cases List.mem_singleton.mp mem
    cases handed
    exact becomes ▸ Int.natCast_nonneg k
  rw [emit, if_pos natural, List.flatMap_singleton, Section.handOver, Section.written]
  simp only [becomes, Int.toNat_natCast, List.nil_append]

/-- A number that becomes negative leaves nothing. -/
theorem emit_eq_none {sections : List Section} {sec : Section} {bytes : Nat} (mem : sec ∈ sections)
    (handed : bytes ∈ sec.handedOver) (large : 2 ^ 31 ≤ bytes) (bound : bytes < 2 ^ 32) :
    emit sections = none := by
  have negative : kept bytes < 0 := by
    rw [kept, Nat.mod_eq_of_lt bound]
    exact i32_wrapped large bound
  exact if_neg fun natural => Int.not_le.mpr negative (natural sec mem bytes handed)

/-- Sections leave what they leave one after the other. -/
theorem emit_append (front back : List Section) :
    emit (front ++ back) = (emit front).bind fun first => (emit back).map (first ++ ·) := by
  simp only [emit, List.forall_mem_append, List.flatMap_append]
  by_cases first : ∀ sec ∈ front, ∀ n ∈ sec.handedOver, 0 ≤ kept n
  · by_cases second : ∀ sec ∈ back, ∀ n ∈ sec.handedOver, 0 ≤ kept n
    · rw [if_pos ⟨first, second⟩, if_pos first, if_pos second]
      rfl
    · rw [if_neg fun both => second both.2, if_pos first, if_neg second]
      rfl
  · rw [if_neg fun both => first both.1, if_neg first]
    rfl

/-- In every run whose buffers are short enough for the `int` that `start_thread`
    keeps, what is written is in the order of the calls and, in the end, complete. -/
theorem written_in_order (sections : List Section)
    (keeps : ∀ sec ∈ sections, ∀ n ∈ sec.handedOver, Keeps n) {s : State}
    (schedule : Schedule (State.start sections) s) :
    InOrder (sections.flatMap Section.octets) s :=
  schedule_emits (emit_of_keeps keeps) schedule

/-- A vector of two octets and then one more octet, when the child has not begun. -/
theorem written_in_order_begun :
    InOrder [1, 2, 3]
      ⟨[], true, 1, false, .idle, [.write [3]], [.started ⟨[1, 2], 2⟩]⟩ :=
  written_in_order [.handOver [1, 2] 2, .write [3]] (by simp [Section.handOver, Section.write, Section.handedOver, Keeps])
    (.head (.inl .lock) (.head (.inl .enter) (.head (.inl .increment) (.head (.inl .start)
      (.single (.inl .unlock))))))

/-- A hand-over of `2 ^ 32` octets, which `start_thread` takes for one of none, can end
    with nothing written. -/
theorem schedule_lost (buf : List UInt8) :
    Schedule (State.start [.handOver buf (2 ^ 32)]) ⟨[], true, 0, false, .idle, [], [.finished]⟩ := by
  have empty : startThread buf (2 ^ 32) = ⟨buf, 0⟩ := by
    rw [startThread, kept, Nat.mod_self, i32_ofNat_of_lt (by decide)]
    rfl
  have started : Schedule (State.start [.handOver buf (2 ^ 32)])
      ⟨[], true, 1, false, .idle, [], [.started (startThread buf (2 ^ 32))]⟩ :=
    .head (.inl .lock) (.head (.inl .enter) (.head (.inl .increment) (.head (.inl .start)
      (.single (.inl .unlock)))))
  rw [empty] at started
  have writing := started.tail (.inl (@Step.childLock [] true 1 .idle [] [] [] ⟨buf, 0⟩ le_rfl))
  have cleared := writing.tail (.inl (@Step.clear [] true 1 true .idle [] [] []))
  have signalled := cleared.tail (.inl (@Step.signalNobody [] true 0 true .idle [] [] [] nofun))
  exact signalled.tail (.inl (@Step.childUnlock [] true 0 true .idle [] [] []))

/-- So the order does not hold of every sequence of calls: all of that buffer is lost. -/
theorem handOver_lost : ¬∀ (sections : List Section) (s : State),
    Schedule (State.start sections) s → InOrder (sections.flatMap Section.octets) s := by
  intro claim
  have lost := (claim _ _ (schedule_lost (List.replicate (2 ^ 32) 0))).complete ⟨rfl, rfl, by simp⟩
  have length := congrArg List.length lost
  rw [List.flatMap_singleton, Section.octets, Section.handOver, List.nil_append, List.length_take,
    List.length_replicate, Nat.min_self] at length
  exact absurd length (by decide)

end Libdap.Marshal
