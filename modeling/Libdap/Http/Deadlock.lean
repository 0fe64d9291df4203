import Libdap.Foundation.Threads
import Libdap.Http.LockAccounting

/-! # Waiting with the interface

The lock of an entry is given back only by calls that take the interface first. A thread that waits for one
while it has the interface waits for good. It does not come to this where no call fails while it has locked
an entry, and none writes an entry of which a response is handed out.
-/

namespace Libdap.Http

open Program Threads

/-- The calls of the threads. -/
def program (c : Io × Call) : Act (Option File) := c.2.act c.1

abbrev Threaded := System Mutex Cache String (Option File) (Io × Call)

/-- What a call meets when it gets the interface. -/
def Ready (s : Cache) (c : Io × Call) : Prop := c.1.Fits s ∧ c.2.Sound c.1 s ∧ c.2.Unread s

/-- A thread with the interface waits for a lock of an entry that is taken. -/
def SelfDeadlocked (S : Threaded) (e : Pointer) : Prop :=
  ∃ t c took m next, S.thread t = .waits c took m next ∧ (.d_cache_mutex ∈ took ∧ S.shared.locked .d_cache_mutex = true) ∧
    (m = .d_response_lock e ∨ m = .d_response_write_lock e) ∧ S.shared.locked m = true

/-- The cache with all threads idle. -/
def Cache.threaded (s : Cache) : Threaded := ⟨s, fun _ => .idle⟩

theorem exclusive_calls : ∃ body, Exclusive program .d_cache_mutex Quiet Ready body := by
  have serves (c : Io × Call) : ∃ body, program c = (LOCK .d_cache_mutex >>= fun _ => body) ∧ ∀ s, Quiet s → Ready s c →
      (body.run (setLocked s Mutex.d_cache_mutex true)).Ends (Inside Mutex.d_cache_mutex) fun _ s => Quiet s := by
    obtain ⟨body, same, ends⟩ := call_serves true c.1 c.2
    refine ⟨body, same, fun s quiet ready => ?_⟩
    have done := ends s ⟨quiet, ready.1, ready.2.1, fun _ => ready.2.2⟩
    exact (done.mono fun r s' after => after.1).stops_mono fun m s orderly => orderly rfl
  choose body starts ends using serves
  refine ⟨body, starts, fun s quiet => quiet.books.interface, fun s m held => ?_, fun c s quiet ready => ends c s quiet ready⟩
  change Function.update s.locked m true .d_cache_mutex = true
  by_cases same : m = .d_cache_mutex
  · subst same
    rw [Function.update_self]
  · rw [Function.update_of_ne (Ne.symm same)]
    exact held.resolve_left same

/-- In a run in which every call is ready when it gets the interface. -/
theorem never_selfDeadlocked {s : Cache} (constructed : Constructed s) {events : List (Event (Io × Call))} {S : Threaded}
    (run : Run (Under (AtFirst Ready) (Step program)) s.threaded events S) (e : Pointer) : ¬SelfDeadlocked S e := by
  rintro ⟨t, c, took, m, next, waiting, -, entry, taken⟩
  obtain ⟨body, exclusive⟩ := exclusive_calls
  have other : m ≠ .d_cache_mutex := by
    rcases entry with rfl | rfl <;> exact Mutex.noConfusion
  have free := exclusive.never_waits (quiet_of_constructed constructed).1 (fun _ => rfl) run waiting other
  exact Bool.noConfusion (taken.symm.trans free)

/-- A thread stores a response while another one waits for the interface. -/
theorem storing_not_selfDeadlocked : ∃ S, Run (Under (AtFirst Ready) (Step program)) Cache.unused.threaded
    [.call 0 (Io.ready, .cache_response "http:a".toList 0 []), .call 1 (Io.ready, .get_cached_response "http:a".toList),
      .take 0] S ∧ ¬SelfDeadlocked S 0 := by
  have run : ∃ S, Run (Under (AtFirst Ready) (Step program)) Cache.unused.threaded
      [.call 0 (Io.ready, .cache_response "http:a".toList 0 []), .call 1 (Io.ready, .get_cached_response "http:a".toList),
        .take 0] S := by
    refine ⟨_, .cons ⟨trivial, .call _ rfl⟩ (.cons ⟨trivial, .call _ rfl⟩ (.cons ⟨?_, .take rfl rfl⟩ (.nil _)))⟩
    intro c m next waiting
    cases waiting
    refine ⟨fun f _ => List.not_mem_nil, fun _ => ?_, fun slot e mem => absurd mem List.not_mem_nil⟩
    exact ⟨rfl, rfl, ⟨5, rfl⟩, rfl, fun header mem => absurd mem List.not_mem_nil⟩
  obtain ⟨S, run⟩ := run
  exact ⟨S, run, never_selfDeadlocked unused_constructed run 0⟩

/-- A response is stored again while the old one is handed out. -/
theorem stored_again_selfDeadlocks : ¬∀ (s : Cache) (events : List (Event (Io × Call))) (S : Threaded), Constructed s →
    Run (Step program) s.threaded events S → ¬∃ f e, (f, e) ∈ S.shared.handedOut ∧ SelfDeadlocked S e := by
  intro never
  have run : ∃ S, Run (Step program) Cache.unused.threaded
      [.call 0 (Io.ready, .cache_response "http:a".toList 0 []), .take 0, .take 0, .take 0,
        .call 1 (Io.ready, .get_cached_response "http:a".toList), .take 1,
        .call 2 (Io.ready, .cache_response "http:a".toList 0 []), .take 2] S ∧
      S.shared.handedOut = [(1, 0)] ∧ SelfDeadlocked S 0 :=
    ⟨_, .cons (.call _ rfl) (.cons (.take rfl rfl) (.cons (.take rfl rfl) (.cons (.take rfl rfl) (.cons (.call _ rfl)
      (.cons (.take rfl rfl) (.cons (.call _ rfl) (.cons (.take rfl rfl) (.nil _)))))))), rfl,
      2, _, _, _, _, rfl, ⟨List.mem_singleton.mpr rfl, rfl⟩, .inl rfl, rfl⟩
  obtain ⟨S, run, handed, deadlocked⟩ := run
  exact never _ _ S unused_constructed run ⟨1, 0, handed ▸ List.mem_singleton.mpr rfl, deadlocked⟩

end Libdap.Http
