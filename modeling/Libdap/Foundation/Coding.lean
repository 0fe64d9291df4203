import Mathlib.Data.List.Basic
import Mathlib.Tactic.Common

/-! # Sequences of coded values

Values are put on a stream one after the other, and each is got back by a request
that says what kind of value is expected, not which one. A reader has a state of
its own besides the place it has reached. When every value either comes back from
every state at its place, or goes astray from each, a sequence of values comes back
one by one exactly when all of them do.
-/

namespace Libdap

/-- How values `V` become elements `α` of a stream, and how a reader in a state `S`
    answers requests `K` with results `R`. -/
structure Coding (α V K R S : Type) where
  put : V → Option (List α)
  request : V → K
  result : V → R
  get : K → S → Option (R × S)
  /-- The reader has the elements of this list before it. -/
  At : S → List α → Prop

namespace Coding

variable {α V K R S : Type} (c : Coding α V K R S)

def putAll : List V → Option (List α)
  | [] => some []
  | v :: vs => do
      let first ← c.put v
      let others ← putAll vs
      return first ++ others

def getAll : List K → S → Option (List R × S)
  | [], s => some ([], s)
  | k :: ks, s => do
      let (r, next) ← c.get k s
      let (rs, last) ← getAll ks next
      return (r :: rs, last)

/-- The value comes back, and the reader is left after its last element. -/
def Exact (v : V) : Prop :=
  ∃ bytes, c.put v = some bytes ∧ ∀ s rest, c.At s (bytes ++ rest) →
    ∃ t, c.get (c.request v) s = some (c.result v, t) ∧ c.At t rest

/-- Before some rest the value does not come back, or the reader is left elsewhere. -/
def Astray (v : V) : Prop :=
  ∀ bytes, c.put v = some bytes → ∃ rest, ∀ s, c.At s (bytes ++ rest) →
    ∀ t, c.get (c.request v) s = some (c.result v, t) → ¬c.At t rest

def RoundTrips (vs : List V) : Prop :=
  ∃ bytes, c.putAll vs = some bytes ∧ ∀ s rest, c.At s (bytes ++ rest) →
    ∃ t, c.getAll (vs.map c.request) s = some (vs.map c.result, t) ∧ c.At t rest

/-- The answers to the requests for these values are the values, from one state to another. -/
def Answers (vs : List V) (s t : S) : Prop :=
  c.getAll (vs.map c.request) s = some (vs.map c.result, t)

/-- Other values, coded as the ones that they stand for. -/
def comap {W : Type} (f : W → V) : Coding α W K R S where
  put w := c.put (f w)
  request w := c.request (f w)
  result w := c.result (f w)
  get := c.get
  At := c.At

variable {c}

theorem roundTrips_nil : c.RoundTrips [] :=
  ⟨[], rfl, fun s _ place => ⟨s, rfl, place⟩⟩

theorem roundTrips_cons {v : V} {vs : List V} (exact_ : c.Exact v) (others : c.RoundTrips vs) :
    c.RoundTrips (v :: vs) := by
  obtain ⟨first, putFirst, getFirst⟩ := exact_
  obtain ⟨bytes, putOthers, getOthers⟩ := others
  refine ⟨first ++ bytes, by simp [putAll, putFirst, putOthers], ?_⟩
  intro s rest place
  rw [List.append_assoc] at place
  obtain ⟨next, got, placed⟩ := getFirst s _ place
  obtain ⟨t, gotAll, last⟩ := getOthers next rest placed
  exact ⟨t, by simp [getAll, got, gotAll], last⟩

theorem roundTrips_of_exact {vs : List V} (all : ∀ v ∈ vs, c.Exact v) : c.RoundTrips vs := by
  induction vs with
  | nil => exact roundTrips_nil
  | cons v vs ih =>
      rw [List.forall_mem_cons] at all
      exact roundTrips_cons all.1 (ih all.2)

theorem putAll_append (us vs : List V) :
    c.putAll (us ++ vs) = (do return (← c.putAll us) ++ (← c.putAll vs)) := by
  induction us with
  | nil => cases h : c.putAll vs <;> simp [putAll, h]
  | cons u us ih =>
      rw [List.cons_append, putAll, putAll, ih]
      cases c.put u <;> cases c.putAll us <;> cases c.putAll vs <;> simp

theorem getAll_append (ks ls : List K) (s : S) :
    c.getAll (ks ++ ls) s = (do
      let (rs, t) ← c.getAll ks s
      let (qs, u) ← c.getAll ls t
      return (rs ++ qs, u)) := by
  induction ks generalizing s with
  | nil => cases h : c.getAll ls s <;> simp [getAll, h]
  | cons k ks ih =>
      rw [List.cons_append, getAll, getAll]
      cases c.get k s with
      | none => rfl
      | some got =>
          simp only [Option.bind_eq_bind, Option.bind_some, ih]
          cases c.getAll ks got.2 with
          | none => rfl
          | some more => cases h : c.getAll ls more.2 <;> simp [h]

theorem answers_singleton {v : V} {s t : S} :
    c.Answers [v] s t ↔ c.get (c.request v) s = some (c.result v, t) := by
  simp only [Answers, List.map_cons, List.map_nil, getAll]
  cases got : c.get (c.request v) s with
  | none => simp
  | some r => simp [Prod.ext_iff]

theorem length_of_getAll {ks : List K} {s t : S} {rs : List R} (got : c.getAll ks s = some (rs, t)) :
    rs.length = ks.length := by
  induction ks generalizing s rs with
  | nil =>
      cases got
      rfl
  | cons k ks ih =>
      simp only [getAll, Option.bind_eq_bind, Option.bind_eq_some_iff] at got
      obtain ⟨first, -, others, gotOthers, same⟩ := got
      cases same
      rw [List.length_cons, List.length_cons, ih gotOthers]

theorem answers_comap {W : Type} {f : W → V} {ws : List W} {s t : S} :
    (c.comap f).Answers ws s t ↔ c.Answers (ws.map f) s t := by
  have same : (c.comap f).getAll = c.getAll := by
    funext ks s
    induction ks generalizing s with
    | nil => rfl
    | cons k ks ih => simp only [getAll, comap, ← ih]
  simp only [Answers, same, List.map_map]
  rfl

/-- Values are answered one after the other. -/
theorem answers_append {us vs : List V} {s t : S} (answers : c.Answers (us ++ vs) s t) :
    ∃ between, c.Answers us s between ∧ c.Answers vs between t := by
  unfold Answers at answers
  rw [List.map_append, List.map_append, getAll_append] at answers
  simp only [Option.bind_eq_bind, Option.bind_eq_some_iff] at answers
  obtain ⟨⟨rs, between⟩, front, ⟨qs, last⟩, back, same⟩ := answers
  obtain ⟨joined, rfl⟩ := Prod.mk.inj (Option.some.inj same)
  have length := length_of_getAll front
  rw [List.length_map] at length
  obtain ⟨rfl, rfl⟩ := List.append_inj joined (by rw [length, List.length_map])
  exact ⟨between, front, back⟩

/-- After values that come back, one that goes astray is not got back. -/
theorem not_roundTrips_snoc (opens : ∀ input, ∃ s, c.At s input) {us : List V} {v : V}
    (before : c.RoundTrips us) (astray : c.Astray v) : ¬c.RoundTrips (us ++ [v]) := by
  rintro ⟨bytes, putBytes, gets⟩
  obtain ⟨first, putFirst, getFirst⟩ := before
  rw [putAll_append, putFirst] at putBytes
  cases putLast : c.put v with
  | none => simp [putAll, putLast] at putBytes
  | some last =>
      obtain rfl : first ++ last = bytes := by simpa [putAll, putLast] using putBytes
      obtain ⟨rest, wrong⟩ := astray last putLast
      obtain ⟨s, place⟩ := opens (first ++ last ++ rest)
      obtain ⟨u, gotAll, placed⟩ := gets s rest place
      rw [List.append_assoc] at place
      obtain ⟨t, gotFirst, between⟩ := getFirst s _ place
      rw [List.map_append, getAll_append, gotFirst] at gotAll
      cases got : c.get (c.request v) t with
      | none => simp [getAll, got] at gotAll
      | some answer =>
          obtain ⟨same, rfl⟩ : answer.1 = c.result v ∧ answer.2 = u := by
            simpa [getAll, got] using gotAll
          exact wrong t between answer.2 (same ▸ got) placed

/-- Every value comes back in its turn if and only if each is a good one, where the
    good ones come back and the others go astray. -/
theorem roundTrips_iff (opens : ∀ input, ∃ s, c.At s input) {good : V → Prop} {vs : List V}
    (comesBack : ∀ v ∈ vs, good v → c.Exact v) (goesAstray : ∀ v ∈ vs, ¬good v → c.Astray v) :
    (∀ us, us <+: vs → c.RoundTrips us) ↔ ∀ v ∈ vs, good v := by
  constructor
  · intro trips v mem
    obtain ⟨us, ws, rfl⟩ := List.append_of_mem mem
    by_contra bad
    have last : us ++ [v] <+: us ++ v :: ws := ⟨ws, by simp⟩
    exact not_roundTrips_snoc opens (trips us (List.prefix_append us _)) (goesAstray v mem bad)
      (trips _ last)
  · intro all us initial
    exact roundTrips_of_exact fun v mem =>
      comesBack v (initial.subset mem) (all v (initial.subset mem))

end Coding

end Libdap
