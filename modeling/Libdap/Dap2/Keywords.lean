import Libdap.Escaping.Www

/-! # Keywords in front of a constraint expression

`Keywords::parse_keywords` takes clauses such as `dap(2)` from the front of the projection, one
after the other, up to the first that is none. A keyword with a value that it does not have is
an `Error`.
-/

namespace Libdap.Dap2.Keywords

open Escaping (Text)

/-- The words of this version and the values of each. -/
def knownKeywords : List (Text × List Text) :=
  [("dap".toList, ["2", "2.0", "3.2", "3.3", "3.4", "4", "4.0"].map String.toList),
    ("checksum".toList, ["md5", "MD5", "sha1", "SHA1"].map String.toList)]

/-- `d_parsed_keywords`, a map. -/
abbrev Parsed := Text → Option Text

/-- `m_add_keyword` -/
def add (parsed : Parsed) (word value : Text) : Parsed :=
  fun w => if w = word then some value else parsed w

def badValue (word : Text) : String := "Bad value passed to the keyword/function: " ++ String.ofList word

/-- `m_is_valid_keyword` -/
def isValidKeyword (word value : Text) : Except String Bool :=
  match knownKeywords.lookup word with
  | none => return false
  | some values => if values.contains value then return true else throw (badValue word)

def find (c : Char) (s : Text) : Option Nat := s.findIdx? (· == c)

/-- `substr`, whose length is an unsigned difference. -/
def substr (s : Text) (i j : Nat) : Text := if i ≤ j then (s.drop i).take (j - i) else s.drop i

/-- `f_parse_keyword`: the word and the value, if it gives true. -/
def parseKeyword (kw : Text) : Option (Text × Text) :=
  match find '(' kw, find ')' kw with
  | some i, some j =>
      let word := kw.take i
      let value := substr kw (i + 1) j
      if word ≠ [] ∧ value ≠ [] then some (word, value) else none
  | _, _ => none

/-- The loop: what is left of the projection, and the keywords also where there is an error. -/
def removeKeywords (parsed : Parsed) (projection : Text) : Except String Text × Parsed :=
  if projection = [] then (.ok [], parsed)
  else
    let next_word := projection.takeWhile (· != ',')
    match parseKeyword next_word with
    | none => (.ok projection, parsed)
    | some (word, value) =>
        match isValidKeyword word value with
        | .error e => (.error e, parsed)
        | .ok false => (.ok projection, parsed)
        | .ok true =>
            match _comma : projection.dropWhile (· != ',') with
            | [] => (.ok [], add parsed word value)
            | _ :: rest => removeKeywords (add parsed word value) rest
termination_by projection.length
decreasing_by
  have shorter := (List.dropWhile_suffix (l := projection) (· != ',')).length_le
  rw [_comma, List.length_cons] at shorter
  omega

/-- The whole expression with its escapes replaced, but for a blank. -/
def decoded (ce : Text) : Text := Escaping.www2id ce ['%'] ['%', '2', '0']

theorem decoded_plain {ce : Text} (plain : '%' ∉ ce) : decoded ce = ce := by
  apply Rewriting.Rewriter.rewrite_eq_self
  intro k inside
  have other : ce[k] ≠ '%' := by
    intro percent
    exact plain (percent ▸ List.getElem_mem inside)
  simpa [Escaping.www2idPass, List.getElem?_eq_getElem inside] using other

/-- What is in front of the first `&`. -/
def projectionOf (ce : Text) : Text := ce.takeWhile (· != '&')

/-- The first `&` and what is behind it. -/
def selectionOf (ce : Text) : Text := ce.dropWhile (· != '&')

/-- `parse_keywords` -/
def parseKeywords (parsed : Parsed) (ce : Text) : Except String Text × Parsed :=
  let (left, parsed) := removeKeywords parsed (projectionOf (decoded ce))
  (left.map (· ++ selectionOf (decoded ce)), parsed)

/-! ## What is meant -/

/-- A word and its value as a clause. -/
def clause (p : Text × Text) : Text := p.1 ++ '(' :: p.2 ++ [')']

def Known (word : Text) : Prop := ∃ values, knownKeywords.lookup word = some values

/-- A known word with one of its values. -/
def Allowed (p : Text × Text) : Prop := ∃ values, knownKeywords.lookup p.1 = some values ∧ p.2 ∈ values

/-- A known word with some other value. -/
def Refused (p : Text × Text) : Prop := Known p.1 ∧ p.2 ≠ [] ∧ ')' ∉ p.2 ∧ ¬ Allowed p

/-- The keywords that the clauses of a projection begin with, and the clauses after them. -/
structure Leads (projection : Text) (taken : List (Text × Text)) (rest : List Text) : Prop where
  clauses : projection.splitOn ',' = taken.map clause ++ rest
  allowed : ∀ p ∈ taken, Allowed p
  longest : ∀ p, rest.head? = some (clause p) → ¬ Allowed p

/-- The last value of each word. -/
def recorded (parsed : Parsed) (taken : List (Text × Text)) : Parsed :=
  fun word => ((taken.reverse.find? fun p => p.1 = word).map Prod.snd).or (parsed word)

/-- Nothing follows the parenthesis that closes the value of a known word. -/
def Closed (text : Text) : Prop :=
  ∀ word value behind, text = word ++ '(' :: value ++ ')' :: behind → Known word → value ≠ [] → ')' ∉ value →
    behind = []

/-! ## One clause -/

theorem find_iff {c : Char} {s : Text} {i : Nat} :
    find c s = some i ↔ ∃ before after, s = before ++ c :: after ∧ c ∉ before ∧ before.length = i := by
  induction s generalizing i with
  | nil => simp [find]
  | cons d s ih =>
      rw [find, List.findIdx?_cons]
      by_cases same : d = c
      · subst same
        simp only [beq_self_eq_true, if_true, Option.some.injEq]
        constructor
        · intro zero
          exact ⟨[], s, rfl, by simp, zero⟩
        · rintro ⟨before, after, split, absent, length⟩
          cases before with
          | nil => exact length
          | cons e before => simp_all
      · have other : (d == c) = false := by simpa using same
        rw [other, if_neg (by simp), Option.map_eq_some_iff]
        constructor
        · rintro ⟨j, found, rfl⟩
          obtain ⟨before, after, rfl, absent, length⟩ := ih.mp found
          exact ⟨d :: before, after, rfl, by simp [absent, Ne.symm same], by simp [length]⟩
        · rintro ⟨before, after, split, absent, rfl⟩
          cases before with
          | nil => simp_all
          | cons e before =>
              obtain ⟨rfl, rfl⟩ := List.cons.inj split
              exact ⟨before.length, ih.mpr ⟨before, after, rfl, by simp_all, rfl⟩, rfl⟩

theorem lookup_cases {word : Text} {values : List Text} (found : knownKeywords.lookup word = some values) :
    word = ['d', 'a', 'p'] ∧ values = ["2", "2.0", "3.2", "3.3", "3.4", "4", "4.0"].map String.toList ∨
      word = ['c', 'h', 'e', 'c', 'k', 's', 'u', 'm'] ∧ values = ["md5", "MD5", "sha1", "SHA1"].map String.toList := by
  rw [knownKeywords, List.lookup_cons] at found
  split at found
  next dap =>
    refine .inl ⟨eq_of_beq dap, ?_⟩
    exact (Option.some.inj found).symm
  next =>
    rw [List.lookup_cons] at found
    split at found
    next checksum =>
      refine .inr ⟨eq_of_beq checksum, ?_⟩
      exact (Option.some.inj found).symm
    next => cases found

/-- The words have no parentheses. -/
theorem Known.plain {word : Text} (known : Known word) : word ≠ [] ∧ '(' ∉ word ∧ ')' ∉ word := by
  obtain ⟨values, found⟩ := known
  obtain ⟨dap, -⟩ | ⟨checksum, -⟩ := lookup_cases found
  · subst dap
    decide
  · subst checksum
    decide

theorem Allowed.plain {p : Text × Text} (allowed : Allowed p) : p.2 ≠ [] ∧ ')' ∉ p.2 := by
  obtain ⟨values, found, mem⟩ := allowed
  have all : ∀ value ∈ values, value ≠ [] ∧ ')' ∉ value := by
    obtain ⟨-, eq⟩ | ⟨-, eq⟩ := lookup_cases found
    · subst eq
      decide
    · subst eq
      decide
  exact all p.2 mem

theorem Allowed.known {p : Text × Text} (allowed : Allowed p) : Known p.1 := by
  obtain ⟨values, found, -⟩ := allowed
  exact ⟨values, found⟩

/-- A word and a value are read up to the first parenthesis that closes. -/
theorem parseKeyword_of_closes {word value : Text} (known : Known word) (filled : value ≠ []) (plain : ')' ∉ value)
    (behind : Text) : parseKeyword (word ++ '(' :: value ++ ')' :: behind) = some (word, value) := by
  obtain ⟨some_, noOpen, noClose⟩ := known.plain
  have open_ : find '(' (word ++ '(' :: value ++ ')' :: behind) = some word.length :=
    find_iff.mpr ⟨word, value ++ ')' :: behind, by simp, noOpen, rfl⟩
  have close : find ')' (word ++ '(' :: value ++ ')' :: behind) = some (word.length + 1 + value.length) :=
    find_iff.mpr ⟨word ++ '(' :: value, behind, rfl, by simp [noClose, plain], by simp; omega⟩
  have inner : substr (word ++ '(' :: value ++ ')' :: behind) (word.length + 1) (word.length + 1 + value.length) =
      value := by
    rw [substr, if_pos (by omega), Nat.add_sub_cancel_left, List.append_assoc, List.cons_append,
      ← List.drop_drop, List.drop_left, List.drop_succ_cons, List.drop_zero, List.take_left]
  have front : (word ++ '(' :: value ++ ')' :: behind).take word.length = word := by
    rw [List.append_assoc, List.take_left]
  rw [parseKeyword, open_, close]
  simp only [inner, front]
  exact if_pos ⟨some_, filled⟩

theorem parseKeyword_clause {p : Text × Text} (known : Known p.1) (filled : p.2 ≠ []) (plain : ')' ∉ p.2) :
    parseKeyword (clause p) = some p := by
  have same : clause p = p.1 ++ '(' :: p.2 ++ ')' :: [] := rfl
  rw [same]
  exact parseKeyword_of_closes known filled plain []

/-- What is read as a known word is followed by a value in parentheses. -/
theorem closes_of_parseKeyword {text word value : Text} (read : parseKeyword text = some (word, value))
    (known : Known word) :
    value ≠ [] ∧ ')' ∉ value ∧ ∃ behind, text = word ++ '(' :: value ++ ')' :: behind := by
  obtain ⟨-, -, noClose⟩ := known.plain
  rw [parseKeyword] at read
  cases open_ : find '(' text with
  | none => simp [open_] at read
  | some i =>
      cases close : find ')' text with
      | none => simp [open_, close] at read
      | some j =>
          simp only [open_, close, Option.ite_none_right_eq_some, Option.some.injEq, Prod.mk.injEq] at read
          obtain ⟨⟨-, filled⟩, front, inner⟩ := read
          obtain ⟨before, after, split, -, length⟩ := find_iff.mp open_
          obtain ⟨before', behind, split', absent, length'⟩ := find_iff.mp close
          have isWord : before = word := by
            rw [← front, split, ← length, List.take_left]
          subst isWord length length'
          have later : before.length < before'.length := by
            by_contra early
            have starts : before' ++ [')'] <+: before ++ '(' :: after := by
              rw [← split, split']
              exact ⟨behind, by simp⟩
            have part : before' ++ [')'] <+: before ++ ['('] := by
              refine List.prefix_of_prefix_length_le starts ⟨after, by simp⟩ ?_
              simp only [List.length_append, List.length_singleton]
              omega
            have there : ')' ∈ before ++ ['('] := part.subset (by simp)
            simp [noClose] at there
          have whole : before' = before ++ '(' :: value := by
            have starts : before ++ ['('] <+: before' := by
              refine List.prefix_of_prefix_length_le ⟨after, by simp [split]⟩ ⟨')' :: behind, split'.symm⟩ ?_
              simp only [List.length_append, List.length_singleton]
              omega
            obtain ⟨rest, eq⟩ := starts
            subst eq
            have value_ : rest = value := by
              rw [substr, if_pos (by simp), split'] at inner
              have start : (before ++ ['('] ++ rest ++ ')' :: behind).drop (before.length + 1) =
                  rest ++ ')' :: behind := by
                rw [List.append_assoc]
                exact List.drop_left' (by simp)
              have count : (before ++ ['('] ++ rest).length - (before.length + 1) = rest.length := by
                simp only [List.length_append, List.length_singleton]
                omega
              rw [← inner, start, count, List.take_left]
            rw [← value_]
            simp
          subst whole
          refine ⟨inner ▸ filled, fun mem => absent (by simp [mem]), behind, split'⟩

theorem Allowed.parsed {p : Text × Text} (allowed : Allowed p) : parseKeyword (clause p) = some p :=
  parseKeyword_clause allowed.known allowed.plain.1 allowed.plain.2

theorem Refused.parsed {p : Text × Text} (refused : Refused p) : parseKeyword (clause p) = some p :=
  parseKeyword_clause refused.1 refused.2.1 refused.2.2.1

theorem eq_of_parsed {text : Text} {p q : Text × Text} (read : parseKeyword text = some q) (same : text = clause p)
    (parsed : parseKeyword (clause p) = some p) : p = q := by
  rw [same, parsed] at read
  exact Option.some.inj read

/-- What `m_is_valid_keyword` finds. -/
theorem isValidKeyword_cases (word value : Text) :
    ¬ Known word ∧ isValidKeyword word value = .ok false ∨
      Allowed (word, value) ∧ isValidKeyword word value = .ok true ∨
      Known word ∧ ¬ Allowed (word, value) ∧ isValidKeyword word value = .error (badValue word) := by
  cases found : knownKeywords.lookup word with
  | none =>
      left
      constructor
      · intro ⟨values, known⟩
        rw [found] at known
        cases known
      · simp only [isValidKeyword, found]
        rfl
  | some values =>
      right
      by_cases mem : value ∈ values
      · left
        constructor
        · exact ⟨values, found, mem⟩
        · simp only [isValidKeyword, found, if_pos (List.contains_iff_mem.mpr mem)]
          rfl
      · right
        refine ⟨⟨values, found⟩, ?_, ?_⟩
        · intro ⟨others, again, there⟩
          obtain rfl := Option.some.inj (found.symm.trans again)
          exact mem there
        · have other : ¬values.contains value = true := fun there => mem (List.contains_iff_mem.mp there)
          simp only [isValidKeyword, found, if_neg other]
          rfl

/-! ## The clauses -/

@[simp] theorem recorded_nil (parsed : Parsed) : recorded parsed [] = parsed := by
  funext word
  simp [recorded]

theorem recorded_add (parsed : Parsed) (word value : Text) (taken : List (Text × Text)) :
    recorded (add parsed word value) taken = recorded parsed ((word, value) :: taken) := by
  funext w
  simp only [recorded, List.reverse_cons, List.find?_append, List.find?_singleton, add]
  cases taken.reverse.find? fun p => p.1 = w with
  | some p => simp
  | none =>
      by_cases same : w = word
      · simp [same]
      · simp [same, Ne.symm same]

/-- The clause in front of a comma. -/
theorem splitOn_comma {projection : Text} {c : Char} {behind : Text}
    (comma : projection.dropWhile (· != ',') = c :: behind) :
    projection.splitOn ',' = projection.takeWhile (· != ',') :: behind.splitOn ',' := by
  have isComma : c = ',' := by
    have stops := List.head_dropWhile_not (p := (· != ',')) (l := projection) (by simp [comma])
    simpa [comma] using stops
  subst isComma
  have front : ',' ∉ projection.takeWhile (· != ',') := by
    intro mem
    have holds := List.all_takeWhile (p := (· != ',')) (l := projection)
    simpa using List.all_eq_true.mp holds ',' mem
  conv_lhs => rw [← List.takeWhile_append_dropWhile (p := (· != ',')) (l := projection), comma]
  exact List.splitOn_append_cons_self_of_not_mem front behind

theorem splitOn_no_comma {projection : Text} (none_ : projection.dropWhile (· != ',') = []) :
    projection.splitOn ',' = [projection.takeWhile (· != ',')] := by
  have whole : projection.takeWhile (· != ',') = projection := by
    have both := List.takeWhile_append_dropWhile (p := (· != ',')) (l := projection)
    rwa [none_, List.append_nil] at both
  rw [whole]
  apply List.splitOn_eq_singleton
  intro mem
  have holds := List.all_takeWhile (p := (· != ',')) (l := projection)
  rw [whole] at holds
  simpa using List.all_eq_true.mp holds ',' mem

theorem head_splitOn (projection : Text) :
    (projection.splitOn ',').head? = some (projection.takeWhile (· != ',')) := by
  cases comma : projection.dropWhile (· != ',') with
  | nil => rw [splitOn_no_comma comma, List.head?_cons]
  | cons c behind => rw [splitOn_comma comma, List.head?_cons]

/-- Where no clause is taken the first of them is not one. -/
theorem Leads.none_ {projection : Text}
    (first : ∀ p, projection.takeWhile (· != ',') = clause p → ¬ Allowed p) :
    Leads projection [] (projection.splitOn ',') where
  clauses := rfl
  allowed p mem := absurd mem List.not_mem_nil
  longest p head := by
    rw [head_splitOn] at head
    exact first p (Option.some.inj head)

/-- Where some text is read as a keyword and its value, what is read and what is left are these. -/
structure Removes (parsed : Parsed) (projection : Text) (result : Except String Text × Parsed)
    (taken : List (Text × Text)) (rest : List Text) : Prop where
  leads : Leads projection taken rest
  bad : ∀ p, rest.head? = some (clause p) → Refused p → result = (.error (badValue p.1), recorded parsed taken)
  good : (∀ c, rest.head? = some c → Closed c) → (∀ p, rest.head? = some (clause p) → ¬ Refused p) →
    result = (.ok ([','].intercalate rest), recorded parsed taken)

/-- One step, in front of a keyword with one of its values. -/
theorem Removes.cons {parsed : Parsed} {projection behind : Text} {result : Except String Text × Parsed}
    {p : Text × Text} {taken : List (Text × Text)} {rest : List Text} (allowed : Allowed p)
    (clauses : projection.splitOn ',' = clause p :: behind.splitOn ',')
    (removed : Removes (add parsed p.1 p.2) behind result taken rest) :
    Removes parsed projection result (p :: taken) rest where
  leads :=
    { clauses := by rw [clauses, removed.leads.clauses, List.map_cons, List.cons_append]
      allowed := List.forall_mem_cons.mpr ⟨allowed, removed.leads.allowed⟩
      longest := removed.leads.longest }
  bad q head refused := by
    rw [removed.bad q head refused, recorded_add]
  good closed notBad := by
    rw [removed.good closed notBad, recorded_add]

/-- A keyword with one of its values is all there is. -/
theorem Removes.last {parsed : Parsed} {projection : Text} {p : Text × Text} (allowed : Allowed p)
    (clauses : projection.splitOn ',' = [clause p]) :
    Removes parsed projection (.ok [], add parsed p.1 p.2) [p] [] where
  leads :=
    { clauses := by rw [clauses, List.map_singleton, List.append_nil]
      allowed := List.forall_mem_singleton.mpr allowed
      longest q head := by cases head }
  bad q head _ := by cases head
  good _ _ := by
    rw [← recorded_add, recorded_nil, List.intercalate_nil]

/-- The loop stops, and what it was given is what is left. -/
theorem Removes.stop {parsed : Parsed} {projection : Text}
    (other : ∀ p, projection.takeWhile (· != ',') = clause p → ¬ Allowed p ∧ ¬ Refused p) :
    Removes parsed projection (.ok projection, parsed) [] (projection.splitOn ',') where
  leads := Leads.none_ fun p same => (other p same).1
  bad p head refused := by
    rw [head_splitOn] at head
    exact absurd refused (other p (Option.some.inj head)).2
  good _ _ := by
    rw [List.intercalate_splitOn, recorded_nil]

/-- A known word with another value. -/
theorem Removes.error {parsed : Parsed} {projection word value : Text}
    (read : parseKeyword (projection.takeWhile (· != ',')) = some (word, value)) (known : Known word)
    (bad : ¬ Allowed (word, value)) (whole : projection.takeWhile (· != ',') = clause (word, value)) :
    Removes parsed projection (.error (badValue word), parsed) [] (projection.splitOn ',') where
  leads := by
    apply Leads.none_
    intro p same allowed
    obtain rfl := eq_of_parsed read same allowed.parsed
    exact bad allowed
  bad p head refused := by
    rw [head_splitOn] at head
    obtain rfl := eq_of_parsed read (Option.some.inj head) refused.parsed
    rw [recorded_nil]
  good _ notBad := by
    obtain ⟨filled, plain, -⟩ := closes_of_parseKeyword read known
    rw [head_splitOn, whole] at notBad
    exact absurd ⟨known, filled, plain, bad⟩ (notBad (word, value) rfl)

/-- Text behind a parenthesis: nothing is said. -/
theorem Removes.open_ {parsed : Parsed} {projection word value : Text} {result : Except String Text × Parsed}
    (read : parseKeyword (projection.takeWhile (· != ',')) = some (word, value)) (known : Known word)
    (other : projection.takeWhile (· != ',') ≠ clause (word, value)) :
    Removes parsed projection result [] (projection.splitOn ',') where
  leads := by
    apply Leads.none_
    intro p same allowed
    obtain rfl := eq_of_parsed read same allowed.parsed
    exact other same
  bad p head refused := by
    rw [head_splitOn] at head
    obtain rfl := eq_of_parsed read (Option.some.inj head) refused.parsed
    exact absurd (Option.some.inj head) other
  good closed _ := by
    obtain ⟨filled, plain, behind, text⟩ := closes_of_parseKeyword read known
    obtain rfl := closed _ (head_splitOn projection) word value behind text known filled plain
    exact absurd text other

theorem allowed_of_valid {word value : Text} (valid : isValidKeyword word value = .ok true) : Allowed (word, value) := by
  obtain ⟨-, found⟩ | ⟨allowed, -⟩ | ⟨-, -, found⟩ := isValidKeyword_cases word value
  · cases found.symm.trans valid
  · exact allowed
  · cases found.symm.trans valid

theorem removes (parsed : Parsed) (projection : Text) :
    ∃ taken rest, Removes parsed projection (removeKeywords parsed projection) taken rest := by
  fun_induction removeKeywords parsed projection with
  | case1 parsed => exact ⟨[], _, Removes.stop (by simp [clause])⟩
  | case2 parsed projection some_ next_word unread =>
      refine ⟨[], _, Removes.stop ?_⟩
      intro p same
      have other : parseKeyword (clause p) ≠ some p := by
        rw [← same, unread]
        simp
      exact ⟨fun allowed => other allowed.parsed, fun refused => other refused.parsed⟩
  | case3 parsed projection some_ next_word word value read e bad =>
      obtain ⟨-, valid⟩ | ⟨-, valid⟩ | ⟨known, notAllowed, valid⟩ := isValidKeyword_cases word value
      · cases valid.symm.trans bad
      · cases valid.symm.trans bad
      · obtain rfl := Except.error.inj (valid.symm.trans bad)
        by_cases whole : next_word = clause (word, value)
        · exact ⟨[], _, Removes.error read known notAllowed whole⟩
        · exact ⟨[], _, Removes.open_ read known whole⟩
  | case4 parsed projection some_ next_word word value read unknown =>
      obtain ⟨notKnown, -⟩ | ⟨-, valid⟩ | ⟨-, -, valid⟩ := isValidKeyword_cases word value
      · refine ⟨[], _, Removes.stop ?_⟩
        intro p same
        constructor
        · intro allowed
          obtain rfl := eq_of_parsed read same allowed.parsed
          exact notKnown allowed.known
        · intro refused
          obtain rfl := eq_of_parsed read same refused.parsed
          exact notKnown refused.1
      · cases valid.symm.trans unknown
      · cases valid.symm.trans unknown
  | case5 parsed projection some_ next_word word value read valid comma =>
      have allowed := allowed_of_valid valid
      by_cases whole : next_word = clause (word, value)
      · exact ⟨_, [], Removes.last allowed ((splitOn_no_comma comma).trans (congrArg ([·]) whole))⟩
      · exact ⟨[], _, Removes.open_ read allowed.known whole⟩
  | case6 parsed projection some_ next_word word value read valid c behind comma ih =>
      have allowed := allowed_of_valid valid
      by_cases whole : next_word = clause (word, value)
      · obtain ⟨taken, rest, removed⟩ := ih
        exact ⟨_, rest, removed.cons allowed ((splitOn_comma comma).trans (congrArg (· :: _) whole))⟩
      · exact ⟨[], _, Removes.open_ read allowed.known whole⟩

/-- The leading clauses that are a known word and one of its values, and no others, are taken from the
projection, unless the clause after them has a known word with some other value. -/
theorem parseKeywords_exact (parsed : Parsed) (ce : Text) :
    ∃ taken rest, Leads (projectionOf (decoded ce)) taken rest ∧
      (∀ p, rest.head? = some (clause p) → Refused p →
        parseKeywords parsed ce = (.error (badValue p.1), recorded parsed taken)) ∧
      ((∀ text, rest.head? = some text → Closed text) → (∀ p, rest.head? = some (clause p) → ¬ Refused p) →
        parseKeywords parsed ce =
          (.ok ([','].intercalate rest ++ selectionOf (decoded ce)), recorded parsed taken)) := by
  obtain ⟨taken, rest, removed⟩ := removes parsed (projectionOf (decoded ce))
  refine ⟨taken, rest, removed.leads, ?_, ?_⟩
  · intro p head refused
    rw [parseKeywords, removed.bad p head refused]
    rfl
  · intro closed notBad
    rw [parseKeywords, removed.good closed notBad]
    rfl

/-- A value that the word does not have is an error, where nothing would be removed. -/
theorem bad_value_throws :
    ¬ ∀ (parsed : Parsed) (ce : Text), ∃ taken rest, Leads (projectionOf (decoded ce)) taken rest ∧
      parseKeywords parsed ce =
        (.ok ([','].intercalate rest ++ selectionOf (decoded ce)), recorded parsed taken) := by
  intro claimed
  obtain ⟨taken, rest, -, returns⟩ := claimed (fun _ => none) "dap(9)".toList
  have whole : decoded "dap(9)".toList = "dap(9)".toList := decoded_plain (by decide)
  have read : parseKeyword (("dap(9)".toList.takeWhile (· != '&')).takeWhile (· != ',')) = some ("dap".toList, "9".toList) := by
    decide
  have bad : isValidKeyword "dap".toList "9".toList = .error (badValue "dap".toList) := rfl
  have throws : (parseKeywords (fun _ => none) "dap(9)".toList).1 = .error (badValue "dap".toList) := by
    rw [parseKeywords, whole, projectionOf, removeKeywords, if_neg (by decide)]
    simp only [read, bad]
    rfl
  rw [returns] at throws
  cases throws

end Libdap.Dap2.Keywords
