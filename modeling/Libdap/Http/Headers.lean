import Libdap.Http.Cache
import Libdap.Http.Lines
import Libdap.Http.Time

/-! # What headers do to an entry

Each header has one effect on an entry: it gives a field a value, or sets a flag, or does
nothing. Effects on different fields can be exchanged.
-/

namespace Libdap.Http

/-- A header as a server sends it: a name, a colon, a blank and a value. -/
structure Header where
  name : String
  value : Text
  noColon : ':' ∉ name.toList

namespace Header

def line (h : Header) : Text := h.name.toList ++ ':' :: ' ' :: h.value

end Header

/-- The limits of a client on the age of what it takes, negative where there is none. -/
structure Limits where
  always_validate : Bool
  max_age : Int
  max_stale : Int
  min_fresh : Int

/-- No limits. -/
def Limits.none : Limits := ⟨false, -1, -1, -1⟩

/-- `is_url_valid`, when the entry has been found. -/
def is_url_valid (limits : Limits) (now : Int) (entry : CacheEntry) : Bool :=
  if limits.always_validate then false
  else if entry.must_revalidate then false
  else
    let resident_time := now - entry.response_time
    let current_age := entry.corrected_initial_age + resident_time
    if 0 ≤ limits.max_age ∧ limits.max_age < current_age then false
    else if 0 ≤ limits.min_fresh ∧ entry.freshness_lifetime < current_age + limits.min_fresh then false
    else current_age < entry.freshness_lifetime + if 0 ≤ limits.max_stale then limits.max_stale else 0

/-- What a header does. -/
inductive Effect where
  | nothing
  | etag (value : Text)
  | lm (t : Int)
  | expires (t : Int)
  | date (t : Int)
  | age (t : Int)
  | max_age (t : Int)
  | no_cache
  | must_revalidate
  deriving Repr, DecidableEq

namespace Effect

def apply (entry : CacheEntry) : Effect → CacheEntry
  | .nothing => entry
  | .etag value => { entry with etag := value }
  | .lm t => { entry with lm := t }
  | .expires t => { entry with expires := t }
  | .date t => { entry with date := t }
  | .age t => { entry with age := t }
  | .max_age t => { entry with max_age := t }
  | .no_cache => { entry with no_cache := true }
  | .must_revalidate => { entry with must_revalidate := true }

/-- They give values to the same field. -/
def SameField : Effect → Effect → Prop
  | .etag _, .etag _ | .lm _, .lm _ | .expires _, .expires _ | .date _, .date _ | .age _, .age _
  | .max_age _, .max_age _ => True
  | _, _ => False

theorem apply_comm {a b : Effect} (agree : a.SameField b → a = b) (entry : CacheEntry) :
    (b.apply (a.apply entry)) = a.apply (b.apply entry) := by
  by_cases same : a = b
  · rw [same]
  · have differ : ¬a.SameField b := fun field => same (agree field)
    cases a <;> cases b <;> first | rfl | exact absurd trivial differ

end Effect

section

variable (parse_time : Text → Int) (max_entry_size : Nat)

def Header.effect (h : Header) : Effect :=
  if h.name = "ETag" then .etag h.value
  else if h.name = "Last-Modified" then .lm (parse_time h.value)
  else if h.name = "Expires" then .expires (parse_time h.value)
  else if h.name = "Date" then .date (parse_time h.value)
  else if h.name = "Age" then .age (parse_time h.value)
  else if h.name = "Content-Length" then if max_entry_size < strtoul h.value then .no_cache else .nothing
  else if h.name = "Cache-Control" then
    if h.value = "no-cache".toList ∨ h.value = "no-store".toList then .no_cache
    else if h.value = "must-revalidate".toList then .must_revalidate
    else if contains h.value "max-age" then .max_age (parse_time h.value)
    else .nothing
  else .nothing

variable {parse_time max_entry_size}

theorem set_header_eq (entry : CacheEntry) (h : Header) :
    set_header parse_time max_entry_size entry h.name h.value = (h.effect parse_time max_entry_size).apply entry := by
  have large : { entry with no_cache := decide (max_entry_size < strtoul h.value ∨ entry.no_cache = true) } =
      if max_entry_size < strtoul h.value then { entry with no_cache := true } else entry := by
    by_cases is : max_entry_size < strtoul h.value
    · simp only [is, true_or, decide_true, ↓reduceIte]
    · simp only [is, false_or, Bool.decide_eq_true, ↓reduceIte]
  rw [set_header, large]
  simp only [Header.effect, apply_ite (Effect.apply entry)]
  rfl

/-- The name ends at the first colon, and the value starts behind the first colon with a blank. -/
theorem parse_header_line (entry : CacheEntry) (h : Header) :
    parse_header parse_time max_entry_size entry h.line = (h.effect parse_time max_entry_size).apply entry := by
  have colon : ∀ (name : Text) (rest needle : Text), ':' ∉ name → (':' :: needle).isPrefixOf (':' :: rest) →
      find (':' :: needle) (name ++ ':' :: rest) = some name.length := by
    intro name rest needle noColon starts
    induction name with
    | nil => exact find_eq_zero_of_starts starts
    | cons ch name ih =>
      rw [List.mem_cons, not_or] at noColon
      have other : (':' :: needle).isPrefixOf (ch :: (name ++ ':' :: rest)) = false := by
        rw [List.isPrefixOf, beq_false_of_ne noColon.1, Bool.false_and]
      rw [List.cons_append, find, other, ih noColon.2]
      rfl
  have one := colon h.name.toList (' ' :: h.value) [] h.noColon rfl
  have two := colon h.name.toList (' ' :: h.value) [' '] h.noColon rfl
  have value : (h.name.toList ++ ':' :: ' ' :: h.value).drop (h.name.toList.length + 2) = h.value := by
    rw [List.drop_append]
    simp
  rw [← set_header_eq, parse_header, Header.line, one, two]
  simp only [List.take_left, String.ofList_toList, Option.elim_some, value]

theorem effect_eq_no_cache {h : Header} : h.effect parse_time max_entry_size = .no_cache ↔
    (h.name = "Content-Length" ∧ max_entry_size < strtoul h.value) ∨
      (h.name = "Cache-Control" ∧ (h.value = "no-cache".toList ∨ h.value = "no-store".toList)) := by
  constructor
  · intro effect
    unfold Header.effect at effect
    split_ifs at effect with _ _ _ _ _ length large control flag
    · exact .inl ⟨length, large⟩
    · exact .inr ⟨control, flag⟩
  · rintro (⟨length, large⟩ | ⟨control, flag⟩)
    · simp [Header.effect, length, large]
    · simp only [Header.effect, control, flag, String.reduceEq, ↓reduceIte]

theorem effect_eq_must_revalidate {h : Header} : h.effect parse_time max_entry_size = .must_revalidate ↔
    h.name = "Cache-Control" ∧ h.value = "must-revalidate".toList := by
  constructor
  · intro effect
    unfold Header.effect at effect
    split_ifs at effect with _ _ _ _ _ _ _ control _ flag
    exact ⟨control, flag⟩
  · rintro ⟨control, flag⟩
    have other : ¬("must-revalidate".toList = "no-cache".toList ∨ "must-revalidate".toList = "no-store".toList) := by
      decide
    simp only [Header.effect, control, flag, other, String.reduceEq, ↓reduceIte]

theorem parse_headers_lines (entry : CacheEntry) (headers : List Header) :
    parse_headers parse_time entry max_entry_size (headers.map Header.line) =
      (headers.map (Header.effect parse_time max_entry_size)).foldl Effect.apply entry := by
  rw [parse_headers, List.foldl_map, List.foldl_map]
  congr
  funext entry h
  exact parse_header_line entry h

end

namespace Effect

theorem no_cache_of_apply {entry : CacheEntry} {effects : List Effect} :
    (effects.foldl apply entry).no_cache = true ↔ entry.no_cache = true ∨ .no_cache ∈ effects := by
  induction effects generalizing entry with
  | nil => simp
  | cons effect effects ih =>
    rw [List.foldl_cons, ih]
    cases effect <;> simp [apply]

theorem must_revalidate_of_apply {entry : CacheEntry} {effects : List Effect} :
    (effects.foldl apply entry).must_revalidate = true ↔
      entry.must_revalidate = true ∨ .must_revalidate ∈ effects := by
  induction effects generalizing entry with
  | nil => simp
  | cons effect effects ih =>
    rw [List.foldl_cons, ih]
    cases effect <;> simp [apply]

end Effect

section

variable (parse_time : Text → Int) (max_entry_size : Nat)

/-- No two headers give one field different values. -/
def Consistent (headers : List Header) : Prop :=
  ∀ h ∈ headers, ∀ h' ∈ headers,
    (h.effect parse_time max_entry_size).SameField (h'.effect parse_time max_entry_size) →
      h.effect parse_time max_entry_size = h'.effect parse_time max_entry_size

variable {parse_time max_entry_size}

theorem parse_headers_perm (entry : CacheEntry) {headers headers' : List Header} (order : headers.Perm headers')
    (consistent : Consistent parse_time max_entry_size headers) :
    parse_headers parse_time entry max_entry_size (headers'.map Header.line) =
      parse_headers parse_time entry max_entry_size (headers.map Header.line) := by
  rw [parse_headers_lines, parse_headers_lines]
  symm
  apply (order.map _).foldl_eq'
  intro a aMem b bMem entry
  obtain ⟨h, hMem, rfl⟩ := List.mem_map.mp aMem
  obtain ⟨h', hMem', rfl⟩ := List.mem_map.mp bMem
  exact Effect.apply_comm (consistent h hMem h' hMem') entry

theorem parse_headers_no_cache (entry : CacheEntry) (headers : List Header) :
    (parse_headers parse_time entry max_entry_size (headers.map Header.line)).no_cache = true ↔
      entry.no_cache = true ∨ ∃ h ∈ headers, (h.name = "Content-Length" ∧ max_entry_size < strtoul h.value) ∨
        (h.name = "Cache-Control" ∧ (h.value = "no-cache".toList ∨ h.value = "no-store".toList)) := by
  rw [parse_headers_lines, Effect.no_cache_of_apply, List.mem_map]
  exact or_congr Iff.rfl (exists_congr fun h => and_congr Iff.rfl effect_eq_no_cache)

theorem parse_headers_must_revalidate (entry : CacheEntry) (headers : List Header) :
    (parse_headers parse_time entry max_entry_size (headers.map Header.line)).must_revalidate = true ↔
      entry.must_revalidate = true ∨
        ∃ h ∈ headers, h.name = "Cache-Control" ∧ h.value = "must-revalidate".toList := by
  rw [parse_headers_lines, Effect.must_revalidate_of_apply, List.mem_map]
  exact or_congr Iff.rfl (exists_congr fun h => and_congr Iff.rfl effect_eq_must_revalidate)

end

/-- Without limits of the client an entry is good for as long as its maximal age says. -/
theorem is_url_valid_of_max_age {entry : CacheEntry} (given : 0 ≤ entry.max_age) (fits : entry.max_age < 2 ^ 31)
    (default_expiration request_time now now' : Int) :
    is_url_valid .none now' (calculate_time entry default_expiration request_time now) = true ↔
      entry.must_revalidate = false ∧
        (calculate_time entry default_expiration request_time now).corrected_initial_age + (now' - now) <
          entry.max_age := by
  have lifetime : (calculate_time entry default_expiration request_time now).freshness_lifetime = entry.max_age := by
    simp only [calculate_time, given, ↓reduceIte]
    rw [Ints.i32_of_fits ⟨by omega, fits⟩]
    exact max_eq_right given
  unfold is_url_valid
  rw [lifetime]
  cases revalidate : entry.must_revalidate with
  | true => simp [Limits.none, calculate_time, revalidate]
  | false => simp [Limits.none, calculate_time, revalidate]

end Libdap.Http
