import Libdap.Http.Sweeping

/-! # Garbage collection

The phases of a collection are sweeps, first of what has expired and of what is too big, then
of what was used least. The last phase goes on until enough has been removed, which may be never.
-/

namespace Libdap.Http

open Ints Program

/-- What has expired, where that matters. -/
def Cache.expired (s : Cache) (now : Int) (e : CacheEntry) : Bool :=
  !s.expire_ignored && decide (e.freshness_lifetime < e.corrected_initial_age + (now - e.response_time))

def Cache.tooBig (s : Cache) (e : CacheEntry) : Bool := decide (u32 s.max_entry_size < e.size)

/-- The cache with the size that a sweep leaves. -/
def Cache.afterSweep (s : Cache) (condition : CacheEntry → Bool) : Cache :=
  { s with current_size := s.current_size - s.spaceOf (s.residents.filter (s.condemned condition)) }

theorem expired_gc_run (s : Cache) (now : Int) :
    ∃ s', (expired_gc now).run s = .done () s' ∧ Swept (s.expired now) s s' := by
  rw [expired_gc, read_bind]
  cases ignored : s.expire_ignored with
  | true =>
    refine ⟨s, rfl, (Swept.none s).congr fun e _ => ?_⟩
    rw [Cache.expired, ignored]
    rfl
  | false =>
    obtain ⟨s', run, swept⟩ := forSlots_swept
      (fun e => e.freshness_lifetime < e.corrected_initial_age + (now - e.response_time)) s
    have deleted : (delete_expired_entries now).run s = .done () s' := by rw [delete_expired_entries, DeleteExpired, run]
    refine ⟨s', ?_, swept.congr fun e _ => ?_⟩
    · simp only [Bool.false_eq_true, ↓reduceIte, deleted]
    · rw [Cache.expired, ignored]
      rfl

theorem too_big_gc_run (s : Cache) : ∃ s', too_big_gc.run s = .done () s' ∧
    ((s.startGC = false ∧ s' = s) ∨ (s.startGC = true ∧ Swept s.tooBig s s')) := by
  rw [too_big_gc, read_bind, read_bind]
  cases start : s.startGC with
  | false => exact ⟨s, rfl, .inl ⟨rfl, rfl⟩⟩
  | true =>
    obtain ⟨s', run, swept⟩ := forSlots_swept (fun e => u32 s.max_entry_size < e.size) s
    have deleted : (delete_by_size s.max_entry_size).run s = .done () s' := by rw [delete_by_size, DeleteBySize, run]
    refine ⟨s', ?_, .inr ⟨rfl, swept⟩⟩
    simp only [↓reduceIte, deleted]

/-- What the rounds from a number of hits on delete. -/
def usedLess (hits : Int) (rounds : Nat) (e : CacheEntry) : Bool := decide (0 < rounds ∧ e.hits < hits + rounds)

theorem delete_by_hits_run (s : Cache) (hits : Int) :
    ∃ s', (delete_by_hits hits).run s = .done () s' ∧ Swept (usedLess hits 1) s s' := by
  obtain ⟨s', run, swept⟩ := forSlots_swept (fun e => decide (e.hits ≤ hits)) s
  refine ⟨s', by rw [delete_by_hits, DeleteByHits, run], swept.congr fun e _ => ?_⟩
  rw [usedLess, decide_eq_decide]
  omega

/-- So many rounds of the loop of `hits_gc`, if it has so many. -/
def hitsRounds : Nat → Int → Act Unit
  | 0, _ => pure ()
  | rounds + 1, hits => do
    let stop ← read Cache.stopGC
    if stop then return
    else do
      delete_by_hits hits
      hitsRounds rounds (hits + 1)

/-- A collection that is looked at after so many rounds of its loop. -/
def collectRounds (now : Int) (rounds : Nat) : Act Unit := do
  expired_gc now
  too_big_gc
  let start ← read Cache.startGC
  if start then hitsRounds rounds 0 else return

theorem hitsRounds_run (rounds : Nat) (hits : Int) (s : Cache) :
    ∃ s' condition, (hitsRounds rounds hits).run s = .done () s' ∧ Swept condition s s' := by
  induction rounds generalizing hits s with
  | zero => exact ⟨s, _, rfl, .none s⟩
  | succ rounds ih =>
    rw [hitsRounds, read_bind]
    cases s.stopGC with
    | true => exact ⟨s, _, rfl, .none s⟩
    | false =>
      obtain ⟨s₁, run, swept⟩ := delete_by_hits_run s hits
      obtain ⟨s₂, condition, more, later⟩ := ih (hits + 1) s₁
      refine ⟨s₂, _, ?_, swept.trans later⟩
      change ((delete_by_hits hits >>= fun _ => hitsRounds rounds (hits + 1)).run s) = _
      rw [bind_run run, more]

/-- Either the loop ends where enough has been removed, or enough has been removed before none of its rounds. -/
theorem hitsLoop_run (rounds : Nat) (hits : Int) (s : Cache) :
    (∃ s' condition, (hitsLoop rounds hits).run s = .done () s' ∧ s'.stopGC = true ∧ Swept condition s s') ∨
      ((hitsLoop rounds hits).run s = .never ∧
        ∀ k < rounds, ∃ s', Swept (usedLess hits k) s s' ∧ s'.stopGC = false) := by
  induction rounds generalizing hits s with
  | zero => exact .inr ⟨rfl, fun k lt => absurd lt (Nat.not_lt_zero k)⟩
  | succ rounds ih =>
    rw [hitsLoop, read_bind]
    cases stop : s.stopGC with
    | true => exact .inl ⟨s, _, rfl, stop, .none s⟩
    | false =>
      obtain ⟨s₁, run, swept⟩ := delete_by_hits_run s hits
      have step : (if false = true then (pure () : Act Unit) else do
          delete_by_hits hits
          hitsLoop rounds (hits + 1)).run s = (hitsLoop rounds (hits + 1)).run s₁ := by
        change ((delete_by_hits hits >>= fun _ => hitsLoop rounds (hits + 1)).run s) = _
        rw [bind_run run]
      rw [step]
      rcases ih (hits + 1) s₁ with ⟨s₂, condition, more, enough, later⟩ | ⟨never, before⟩
      · exact .inl ⟨s₂, _, more, enough, swept.trans later⟩
      · refine .inr ⟨never, fun k lt => ?_⟩
        cases k with
        | zero =>
          refine ⟨s, (Swept.none s).congr fun e _ => ?_, stop⟩
          rfl
        | succ k =>
          obtain ⟨s₂, later, short⟩ := before k (Nat.lt_of_succ_lt_succ lt)
          refine ⟨s₂, (swept.trans later).congr fun e _ => ?_, short⟩
          rw [usedLess, usedLess, usedLess, ← Bool.decide_or, decide_eq_decide]
          omega

/-- A loop that has ended does not use the rounds that are left. -/
theorem hitsLoop_more {rounds : Nat} {hits : Int} {s s' : Cache} (ended : (hitsLoop rounds hits).run s = .done () s')
    (more : Nat) : (hitsLoop (rounds + more) hits).run s = .done () s' := by
  induction rounds generalizing hits s with
  | zero => cases ended
  | succ rounds ih =>
    rw [Nat.add_right_comm, hitsLoop, read_bind]
    rw [hitsLoop, read_bind] at ended
    cases stop : s.stopGC with
    | true =>
      rw [stop] at ended
      exact ended
    | false =>
      rw [stop] at ended
      obtain ⟨s₁, run, _⟩ := delete_by_hits_run s hits
      change ((delete_by_hits hits >>= fun _ => hitsLoop rounds (hits + 1)).run s) = _ at ended
      change ((delete_by_hits hits >>= fun _ => hitsLoop (rounds + more) (hits + 1)).run s) = _
      rw [bind_run run] at ended ⊢
      exact ih ended

/-- All numbers of hits are below some number of rounds. -/
theorem exists_usedLess (s : Cache) : ∃ rounds, ∀ e ∈ s.residents, usedLess 0 rounds (s.heap e) = true := by
  induction s.residents with
  | nil => exact ⟨0, fun e mem => absurd mem List.not_mem_nil⟩
  | cons e es ih =>
    obtain ⟨rounds, all⟩ := ih
    refine ⟨rounds + (s.heap e).hits.toNat + 1, fun e' mem => ?_⟩
    rw [usedLess, decide_eq_true_iff]
    cases mem with
    | head => omega
    | tail _ mem =>
      have below := all e' mem
      rw [usedLess, decide_eq_true_iff] at below
      omega

/-- The first two phases, before whatever comes next. -/
theorem phases_run (s : Cache) (now : Int) : ∃ s₂, (∀ rest : Act Unit,
      (expired_gc now >>= fun _ => too_big_gc >>= fun _ => rest).run s = rest.run s₂) ∧
    (((s.afterSweep (s.expired now)).startGC = false ∧ Swept (s.expired now) s s₂) ∨
      ((s.afterSweep (s.expired now)).startGC = true ∧ Swept (fun e => s.expired now e || s.tooBig e) s s₂)) := by
  obtain ⟨s₁, first, swept⟩ := expired_gc_run s now
  obtain ⟨s₂, second, outcome⟩ := too_big_gc_run s₁
  refine ⟨s₂, fun rest => by rw [bind_run first, bind_run second], ?_⟩
  have start : s₁.startGC = (s.afterSweep (s.expired now)).startGC := swept.startGC
  rcases outcome with ⟨small, same⟩ | ⟨large, later⟩
  · exact .inl ⟨start ▸ small, same ▸ swept⟩
  · have big : s₁.tooBig = s.tooBig := by
      funext e
      rw [swept.rest]
      rfl
    exact .inr ⟨start ▸ large, swept.trans (big ▸ later)⟩

theorem perform_run (io : Io) {s s₂ : Cache}
    (phases : ∀ rest : Act Unit, (expired_gc io.now >>= fun _ => too_big_gc >>= fun _ => rest).run s = rest.run s₂) :
    (perform_garbage_collection io).run s =
      if s₂.startGC = true then (hitsLoop io.rounds 0).run s₂ else .done () s₂ := by
  rw [perform_garbage_collection, phases, hits_gc, read_bind]
  split
  · rfl
  · rfl

/-- A collection keeps the entries that have readers, however far it gets. It ends where it need not go on after the
    first phases, and where what has no readers is enough to remove. Where it has ended the cache is below the size
    at which a collection stops, or not above the one at which it starts. -/
theorem garbage_collection (io : Io) (s : Cache) :
    (∀ rounds, ∃ s', (collectRounds io.now rounds).run s = .done () s' ∧
      ∀ e ∈ s.residents, (s.heap e).readers ≠ 0 → e ∈ s'.residents) ∧
    ((s.afterSweep (s.expired io.now)).startGC = false ∨
        (s.afterSweep fun e => s.expired io.now e || s.tooBig e).startGC = false ∨
        (s.afterSweep fun _ => true).stopGC = true →
      ∃ rounds s', ∀ more, (perform_garbage_collection { io with rounds := rounds + more }).run s = .done () s') ∧
    ∀ s', (perform_garbage_collection io).run s = .done () s' →
      (s'.stopGC = true ∨ s'.startGC = false) ∧
        ∀ e ∈ s.residents, (s.heap e).readers ≠ 0 → e ∈ s'.residents := by
  obtain ⟨s₂, phases, outcome⟩ := phases_run s io.now
  have swept : ∃ condition, Swept condition s s₂ := outcome.elim (fun o => ⟨_, o.2⟩) fun o => ⟨_, o.2⟩
  obtain ⟨condition, swept⟩ := swept
  refine ⟨fun rounds => ?_, fun ends => ?_, fun s' ended => ?_⟩
  · obtain ⟨s', later, run, more⟩ := hitsRounds_run rounds 0 s₂
    rw [collectRounds, phases, read_bind]
    cases s₂.startGC with
    | true => exact ⟨s', run, fun e mem locked => (swept.trans more).locked_stay mem locked⟩
    | false => exact ⟨s₂, rfl, fun e mem locked => swept.locked_stay mem locked⟩
  · cases start : s₂.startGC with
    | false =>
      refine ⟨0, s₂, fun more => ?_⟩
      rw [perform_run { io with rounds := 0 + more } phases, start]
      rfl
    | true =>
      have enough : (s.afterSweep fun _ => true).stopGC = true := by
        rcases outcome with ⟨small, only⟩ | ⟨large, both⟩
        · rw [show s₂.startGC = (s.afterSweep (s.expired io.now)).startGC from only.startGC, small] at start
          cases start
        · rcases ends with small | small | enough
          · rw [large] at small
            cases small
          · rw [show s₂.startGC = _ from both.startGC] at start
            exact absurd start (Bool.eq_false_iff.mp small)
          · exact enough
      obtain ⟨rounds, all⟩ := exists_usedLess s
      rcases hitsLoop_run (rounds + 1) 0 s₂ with ⟨s', _, run, _, _⟩ | ⟨_, before⟩
      · refine ⟨rounds + 1, s', fun more => ?_⟩
        rw [perform_run { io with rounds := rounds + 1 + more } phases, start]
        exact hitsLoop_more run more
      · obtain ⟨s', later, short⟩ := before rounds (Nat.lt_succ_self rounds)
        have everything : Swept (fun _ => true) s s' := by
          apply (swept.trans later).congr
          intro e mem
          rw [all e mem, Bool.or_true]
        rw [show s'.stopGC = (s.afterSweep fun _ => true).stopGC from everything.stopGC, enough] at short
        cases short
  · rw [perform_run io phases] at ended
    cases start : s₂.startGC with
    | false =>
      rw [start] at ended
      cases ended
      exact ⟨.inr start, fun e mem locked => swept.locked_stay mem locked⟩
    | true =>
      rw [start] at ended
      rcases hitsLoop_run io.rounds 0 s₂ with ⟨s₃, _, run, enough, later⟩ | ⟨never, _⟩
      · rw [if_pos rfl, run] at ended
        cases ended
        exact ⟨.inl enough, fun e mem locked => (swept.trans later).locked_stay mem locked⟩
      · rw [if_pos rfl, never] at ended
        cases ended

/-- With readers for everything a cache that is too large stays as it is, and the loop goes on. -/
theorem collection_goes_on {s : Cache} (locked : ∀ e ∈ s.residents, (s.heap e).readers ≠ 0)
    (start : s.startGC = true) (above : s.stopGC = false) (io : Io) :
    (perform_garbage_collection io).run s = .never := by
  have same : ∀ condition, s.afterSweep condition = s := by
    intro condition
    have nobody : s.residents.filter (s.condemned condition) = [] := by
      apply List.filter_eq_nil_iff.mpr
      intro e mem
      rw [Cache.condemned, decide_eq_false (locked e mem)]
      exact Bool.false_ne_true
    rw [Cache.afterSweep, nobody]
    rfl
  obtain ⟨s₂, phases, outcome⟩ := phases_run s io.now
  have swept : ∃ condition, Swept condition s s₂ := outcome.elim (fun o => ⟨_, o.2⟩) fun o => ⟨_, o.2⟩
  obtain ⟨condition, swept⟩ := swept
  have started : s₂.startGC = true := by
    rw [show s₂.startGC = (s.afterSweep condition).startGC from swept.startGC, same, start]
  rw [perform_run io phases, started, if_pos rfl]
  rcases hitsLoop_run io.rounds 0 s₂ with ⟨s₃, _, _, enough, later⟩ | ⟨never, _⟩
  · rw [show s₃.stopGC = (s.afterSweep _).stopGC from (swept.trans later).stopGC, same, above] at enough
    cases enough
  · exact never

/-- A system that does nothing. -/
def Io.idle : Io :=
  { now := 0, parse_time := fun _ => 0, mkdir := none, mkstemp := none, body := .cannotOpen, metadataOpens := false,
    headerWrites := fun _ => false, metadata := none, openBody := none, indexFile := .cannotOpen,
    indexRemoved := false, rounds := 0 }

/-- One entry, which fills the cache to more than what a collection leaves and less than what starts one. -/
def Cache.nearlyFull : Cache :=
  { heap := fun _ => { CacheEntry.empty with hash := 0, size := 94 }, next := 1, locked := fun _ => false
    cache_table := fun slot => if slot = 0 then [some 0] else [], block_size := 1, current_size := 95
    new_entries := 0, locked_entries := [], index := none, cache_root := [], total_size := 100, folder_size := 0
    gc_buffer := 10, max_entry_size := 100, expire_ignored := true, default_expiration := 0 }

theorem nearlyFull_not_collected :
    ¬∃ rounds s', (perform_garbage_collection { Io.idle with rounds := rounds }).run Cache.nearlyFull = .done () s' ∧
      (s'.current_size + s'.folder_size ≤ s'.total_size - s'.gc_buffer ∨
        ∀ e ∈ s'.residents, (s'.heap e).readers ≠ 0) := by
  rintro ⟨rounds, s', ended, size | locked⟩
  · cases ended
    exact absurd size (by decide)
  · cases ended
    refine locked 0 ?_ rfl
    exact List.mem_flatMap.mpr ⟨0, List.mem_range.mpr (by decide), by decide⟩

end Libdap.Http
