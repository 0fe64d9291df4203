import Libdap.Dap4.Lookup

/-! # The name of a variable in its group

A variable is found under the names of its containers and its own, with dots
between them, exactly when the name has no escape and nothing on the way hides
the variable: a dot in the name of a container, a sibling that has the whole
rest of the name for its own, or the element template of an array.
-/

namespace Libdap.Dap4

inductive Step where
  | field (name : Name)
  | element
  deriving Repr, DecidableEq

/-- What a variable contains: its fields, and the element template of an array. -/
inductive Below : BaseType → List Step → BaseType → Prop where
  | here (b : BaseType) : Below b [] b
  | field {id : Nat} {name : Name} {kind : Constructor.Kind} {fields : List BaseType} {c t : BaseType}
      {q : List Step} (mem : c ∈ fields) (below : Below c q t) :
      Below (.constructor id name kind fields) (.field c.name :: q) t
  | element {id decl : Nat} {name : Name} {proto t : BaseType} {q : List Step} (below : Below proto q t) :
      Below (.array id name decl proto) (.element :: q) t

/-- The variables of a list and what they contain. -/
def NodeAt (vars : List BaseType) (q : List Step) (t : BaseType) : Prop :=
  ∃ b ∈ vars, ∃ rest, q = .field b.name :: rest ∧ Below b rest t

namespace Step

def name? : Step → Option Name
  | field name => some name
  | element => none

/-- The names that go into the name of a variable. -/
def names (q : List Step) : List Name := q.filterMap name?

@[simp]
theorem names_field (name : Name) (q : List Step) : names (.field name :: q) = name :: names q := rfl

@[simp]
theorem names_element (q : List Step) : names (.element :: q) = names q := rfl

@[simp]
theorem names_snoc_element (q : List Step) : names (q ++ [.element]) = names q := by
  simp [names, name?]

theorem names_append (q q' : List Step) : names (q ++ q') = names q ++ names q' := List.filterMap_append

end Step

/-- A variable, and not a template for the elements of one. -/
structure Declared (vars : List BaseType) (q : List Step) (t : BaseType) : Prop where
  node : NodeAt vars q t
  last : q.getLast? ≠ some .element

/-- Names with a dot between them. -/
def dotted : List Name → Name
  | [] => []
  | [name] => name
  | name :: names => name ++ '.' :: dotted names

theorem dotted_cons (name : Name) {names : List Name} (some_ : names ≠ []) :
    dotted (name :: names) = name ++ '.' :: dotted names := by
  cases names with
  | nil => exact absurd rfl some_
  | cons => rfl

theorem dotted_append {ns ms : List Name} (first : ns ≠ []) (then_ : ms ≠ []) :
    dotted (ns ++ ms) = dotted ns ++ '.' :: dotted ms := by
  induction ns with
  | nil => exact absurd rfl first
  | cons n ns ih =>
      cases ns with
      | nil => exact dotted_cons n then_
      | cons n' ns =>
          rw [List.cons_append, dotted_cons n (by simp), ih (by simp), dotted_cons n (by simp),
            List.append_assoc, List.cons_append]

theorem length_head_le_dotted (name : Name) (names : List Name) :
    name.length ≤ (dotted (name :: names)).length := by
  cases names with
  | nil => exact le_rfl
  | cons n ns => rw [dotted_cons name (by simp)]; simp

theorem Below.append {b c t : BaseType} {q q' : List Step} (first : Below b q c) (then_ : Below c q' t) :
    Below b (q ++ q') t := by
  induction first with
  | here => exact then_
  | field mem _ ih => exact .field mem (ih then_)
  | element _ ih => exact .element (ih then_)

namespace NodeAt

variable {vars : List BaseType} {q : List Step} {c t : BaseType}

theorem top {b : BaseType} (mem : b ∈ vars) : NodeAt vars [.field b.name] b := ⟨b, mem, [], rfl, .here b⟩

theorem append {q' : List Step} (at_ : NodeAt vars q c) (below : Below c q' t) : NodeAt vars (q ++ q') t := by
  obtain ⟨b, mem, rest, rfl, first⟩ := at_
  exact ⟨b, mem, rest ++ q', rfl, first.append below⟩

/-- What the fields of a constructor contain lies behind it. -/
theorem fields {id : Nat} {name : Name} {kind : Constructor.Kind} {fields : List BaseType} {q' : List Step}
    (at_ : NodeAt vars q (.constructor id name kind fields)) (below : NodeAt fields q' t) :
    NodeAt vars (q ++ q') t := by
  obtain ⟨b, mem, rest, rfl, inside⟩ := below
  exact at_.append (.field mem inside)

theorem names_ne_nil (at_ : NodeAt vars q t) : Step.names q ≠ [] := by
  obtain ⟨b, -, rest, rfl, -⟩ := at_
  simp

theorem ne_nil (at_ : NodeAt vars q t) : q ≠ [] := by
  obtain ⟨b, -, rest, rfl, -⟩ := at_
  simp

end NodeAt

/-- Names are told apart where they stand together, and no variable stands in two places. -/
structure Distinct (vars : List BaseType) : Prop where
  names : (vars.map BaseType.name).Nodup
  fields : ∀ {q id name kind fields}, NodeAt vars q (.constructor id name kind fields) →
    (fields.map BaseType.name).Nodup
  unique : ∀ {q q' t}, NodeAt vars q t → NodeAt vars q' t → q = q'

theorem Distinct.below {vars fields : List BaseType} (distinct : Distinct vars) {q : List Step} {id : Nat}
    {name : Name} {kind : Constructor.Kind} (at_ : NodeAt vars q (.constructor id name kind fields)) :
    Distinct fields where
  names := distinct.fields at_
  fields := fun inside => distinct.fields (at_.fields inside)
  unique := fun here there => List.append_cancel_left (distinct.unique (at_.fields here) (at_.fields there))

theorem find_of_nodup {α β : Type} [DecidableEq β] (f : α → β) {l : List α} (names : (l.map f).Nodup) {x : α}
    (mem : x ∈ l) : l.find? (fun y => f y = f x) = some x := by
  induction l with
  | nil => cases mem
  | cons y l ih =>
      rw [List.map_cons, List.nodup_cons] at names
      rcases List.mem_cons.mp mem with rfl | mem
      · simp
      · have other : f y ≠ f x := by
          intro same
          exact names.1 (List.mem_map.mpr ⟨x, mem, same.symm⟩)
        simpa [other] using ih names.2 mem

theorem find_name {vars : List BaseType} (names : (vars.map BaseType.name).Nodup) {b : BaseType} (mem : b ∈ vars) :
    vars.find? (·.name = b.name) = some b := find_of_nodup BaseType.name names mem

/-- No escape is in the name, so that it is taken as it is. -/
theorem www2id_of_not_mem {s : Name} (plain : '%' ∉ s) : www2id s = s := by
  fun_induction www2id s with
  | case1 => rfl
  | case2 => simp at plain
  | case3 a => simp at plain
  | case4 a b none => simp at plain
  | case5 a b none c cs ih => simp at plain
  | case6 a b cs some ih => simp at plain
  | case7 c cs _ _ _ ih =>
      rw [List.mem_cons, not_or] at plain
      rw [ih plain.2]

/-- An escape makes the name shorter. -/
theorem length_www2id_lt {s : Name} (escaped : '%' ∈ s) : (www2id s).length < s.length := by
  fun_induction www2id s with
  | case1 => cases escaped
  | case2 => exact (by decide : (unhexstring []).length < 1)
  | case3 a => exact (length_unhexstring [a]).trans_lt (by simp)
  | case4 a b none => simp
  | case5 a b none c cs ih =>
      have rest := length_www2id cs
      simp only [List.length_cons]
      omega
  | case6 a b cs some ih =>
      have one := length_unhexstring [a, b]
      have rest := length_www2id cs
      simp only [List.length_append, List.length_cons]
      omega
  | case7 c cs plain two one ih =>
      rcases List.mem_cons.mp escaped with rfl | rest
      · rcases cs with _ | ⟨a, _ | ⟨b, cs⟩⟩
        · exact (plain rfl rfl).elim
        · exact (two a rfl rfl).elim
        · exact (one a b cs rfl rfl).elim
      · simpa using ih rest

/-- `var` of what the first part of a name belongs to. -/
def lookupField (field : Name) : Option BaseType → Option BaseType
  | none | some (.simple ..) => none
  | some (.constructor _ _ _ fields) => lookupVar fields field
  | some (.array _ _ _ proto) =>
    if www2id field = [] ∨ proto.name = www2id field then some proto
    else
      match proto with
      | .constructor _ _ _ fields => lookupVar fields (www2id field)
      | .simple .. | .array .. => none

theorem lookupVar_found {vars : List BaseType} {name : Name} {b : BaseType}
    (found : vars.find? (·.name = www2id name) = some b) : lookupVar vars name = some b := by
  rw [lookupVar]
  simp only [found]

theorem lookupVar_field {vars : List BaseType} {name aggregate field : Name}
    (missed : vars.find? (·.name = www2id name) = none)
    (parts : splitFirst '.' (www2id name) = some (aggregate, field)) :
    lookupVar vars name = lookupField field (lookupVar vars aggregate) := by
  rw [lookupVar]
  simp only [missed]
  split
  · rename_i whole
    rw [parts] at whole
    cases whole
  · rename_i a f both
    obtain ⟨rfl, rfl⟩ := Prod.mk.inj (Option.some.inj (parts.symm.trans both))
    rfl

theorem lookupVar_missed {vars : List BaseType} {name : Name}
    (missed : vars.find? (·.name = www2id name) = none) (whole : splitFirst '.' (www2id name) = none) :
    lookupVar vars name = none := by
  rw [lookupVar]
  simp only [missed]
  split
  · rfl
  · rename_i both
    rw [whole] at both
    cases both

theorem length_dotted_append {ns ms : List Name} (first : ns ≠ []) (then_ : ms ≠ []) :
    (dotted (ns ++ ms)).length = (dotted ns).length + 1 + (dotted ms).length := by
  rw [dotted_append first then_, List.length_append, List.length_cons]
  omega

/-- What is found stands somewhere, under a name no longer than the one it was looked up by,
    behind whatever the first part of the name led to. -/
theorem lookupVar_at {vars : List BaseType} {name : Name} {t : BaseType} (found : lookupVar vars name = some t) :
    ∃ q, NodeAt vars q t ∧ (dotted (Step.names q)).length ≤ (www2id name).length := by
  induction size : name.length using Nat.strong_induction_on generalizing vars name t with
  | _ n ih =>
  subst size
  cases here : vars.find? (·.name = www2id name) with
  | some b =>
      rw [lookupVar_found here] at found
      cases found
      have same : t.name = www2id name := by simpa using List.find?_some here
      refine ⟨[.field t.name], .top (List.mem_of_find?_eq_some here), ?_⟩
      exact (congrArg List.length same).le
  | none =>
      cases parts : splitFirst '.' (www2id name) with
      | none =>
          rw [lookupVar_missed here parts] at found
          cases found
      | some both =>
          obtain ⟨aggregate, field⟩ := both
          rw [lookupVar_field here parts] at found
          have shorter := length_of_splitFirst parts
          have whole := length_www2id name
          have decoded := length_www2id field
          have first := length_www2id aggregate
          cases led : lookupVar vars aggregate with
          | none => rw [led] at found; cases found
          | some c =>
              rw [led] at found
              obtain ⟨q, at_, short⟩ := ih aggregate.length (by omega) led rfl
              cases c with
              | simple => cases found
              | constructor id name' kind fields =>
                  obtain ⟨q', below, short'⟩ := ih field.length (by omega) found rfl
                  refine ⟨q ++ q', at_.fields below, ?_⟩
                  rw [Step.names_append, length_dotted_append at_.names_ne_nil below.names_ne_nil]
                  omega
              | array id name' decl proto =>
                  simp only [lookupField] at found
                  split at found
                  · cases found
                    refine ⟨q ++ [.element], at_.append (.element (.here _)), ?_⟩
                    rw [Step.names_snoc_element]
                    omega
                  · cases proto with
                    | simple | array => cases found
                    | constructor id₁ name₁ kind₁ fields =>
                        obtain ⟨q', below, short'⟩ := ih (www2id field).length (by omega) found rfl
                        have twice := length_www2id (www2id field)
                        have inside : NodeAt vars (q ++ [.element]) (.constructor id₁ name₁ kind₁ fields) :=
                          at_.append (.element (.here _))
                        refine ⟨q ++ [.element] ++ q', inside.fields below, ?_⟩
                        rw [Step.names_append, length_dotted_append inside.names_ne_nil below.names_ne_nil,
                          Step.names_snoc_element]
                        omega

theorem NodeAt.below {id : Nat} {name : Name} {kind : Constructor.Kind} {fields : List BaseType} {q : List Step}
    {t : BaseType} (at_ : NodeAt fields q t) : Below (.constructor id name kind fields) q t := by
  obtain ⟨b, mem, rest, rfl, inside⟩ := at_
  exact .field mem inside

theorem lookupField_at {field : Name} {c t : BaseType} (found : lookupField field (some c) = some t) :
    ∃ q, Below c q t := by
  cases c with
  | simple => cases found
  | constructor id name kind fields =>
      obtain ⟨q, at_, -⟩ := lookupVar_at found
      exact ⟨q, at_.below⟩
  | array id name decl proto =>
      simp only [lookupField] at found
      split at found
      · cases found
        exact ⟨[.element], .element (.here _)⟩
      · cases proto with
        | simple | array => cases found
        | constructor id₁ name₁ kind₁ fields =>
            obtain ⟨q, at_, -⟩ := lookupVar_at found
            exact ⟨.element :: q, .element at_.below⟩

/-- No part of the name of a variable hides it: the containers have no dot in their
    names, no sibling of a container has the rest of the name for its own, and no array
    has an element template of that name. -/
inductive Unhidden : List BaseType → List Step → Prop where
  | top {vars : List BaseType} {b : BaseType} (mem : b ∈ vars) : Unhidden vars [.field b.name]
  | field {vars fields : List BaseType} {id : Nat} {name : Name} {kind : Constructor.Kind} {q : List Step}
      (mem : .constructor id name kind fields ∈ vars) (plain : '.' ∉ name)
      (alone : ∀ b ∈ vars, b.name ≠ dotted (name :: Step.names q)) (below : Unhidden fields q) :
      Unhidden vars (.field name :: q)
  | element {vars fields : List BaseType} {id id' decl : Nat} {name name' : Name} {kind : Constructor.Kind}
      {q : List Step} (mem : .array id name decl (.constructor id' name' kind fields) ∈ vars) (plain : '.' ∉ name)
      (alone : ∀ b ∈ vars, b.name ≠ dotted (name :: Step.names q)) (some_ : dotted (Step.names q) ≠ [])
      (other : name' ≠ dotted (Step.names q)) (below : Unhidden fields q) :
      Unhidden vars (.field name :: .element :: q)

theorem eq_of_name {vars : List BaseType} (names : (vars.map BaseType.name).Nodup) {b c : BaseType}
    (mem : b ∈ vars) (mem' : c ∈ vars) (same : b.name = c.name) : b = c := by
  have found := find_name names mem
  rw [same] at found
  exact Option.some.inj (found.symm.trans (find_name names mem'))

theorem Distinct.first {vars : List BaseType} (distinct : Distinct vars) {b t : BaseType} (mem : b ∈ vars)
    {rest : List Step} (at_ : NodeAt vars (.field b.name :: rest) t) : Below b rest t := by
  obtain ⟨c, mem', rest', eq, below⟩ := at_
  obtain ⟨same, rfl⟩ := List.cons.inj eq
  obtain rfl := eq_of_name distinct.names mem mem' (Step.field.inj same)
  exact below

theorem find_alone {vars : List BaseType} {name : Name} (alone : ∀ b ∈ vars, b.name ≠ name) :
    vars.find? (·.name = name) = none := by
  rw [List.find?_eq_none]
  intro b mem
  simpa using alone b mem

theorem Unhidden.ne_nil {vars : List BaseType} {q : List Step} (unhidden : Unhidden vars q) :
    Step.names q ≠ [] := by
  cases unhidden <;> simp

/-- A name whose first part is that of a container is taken apart behind it. -/
theorem container_parts {vars : List BaseType} (distinct : Distinct vars) {c : BaseType} (mem : c ∈ vars)
    {names : List Name} (some_ : names ≠ []) (plain : '.' ∉ c.name)
    (alone : ∀ b ∈ vars, b.name ≠ dotted (c.name :: names)) (escape : '%' ∉ dotted (c.name :: names)) :
    vars.find? (·.name = www2id (dotted (c.name :: names))) = none ∧
      splitFirst '.' (www2id (dotted (c.name :: names))) = some (c.name, dotted names) ∧
      www2id c.name = c.name ∧ lookupVar vars c.name = some c := by
  rw [www2id_of_not_mem escape]
  rw [dotted_cons c.name some_] at escape alone ⊢
  have first : '%' ∉ c.name := fun mem => escape (List.mem_append_left _ mem)
  refine ⟨find_alone alone, splitFirst_append plain _, www2id_of_not_mem first, lookupVar_found ?_⟩
  rw [www2id_of_not_mem first]
  exact find_name distinct.names mem

/-- The lookup of a name whose first part leads to a container. -/
theorem lookupVar_container {vars : List BaseType} (distinct : Distinct vars) {c : BaseType} (mem : c ∈ vars)
    {names : List Name} (some_ : names ≠ []) (plain : '.' ∉ c.name)
    (alone : ∀ b ∈ vars, b.name ≠ dotted (c.name :: names)) (escape : '%' ∉ dotted (c.name :: names)) :
    lookupVar vars (dotted (c.name :: names)) = lookupField (dotted names) (some c) := by
  obtain ⟨missed, parts, -, container⟩ := container_parts distinct mem some_ plain alone escape
  rw [lookupVar_field missed parts, container]

theorem escape_tail {name : Name} {names : List Name} (some_ : names ≠ [])
    (escape : '%' ∉ dotted (name :: names)) : '%' ∉ dotted names := by
  rw [dotted_cons name some_] at escape
  exact fun mem => escape (List.mem_append_right _ (List.mem_cons_of_mem _ mem))

theorem lookupVar_of_unhidden {vars : List BaseType} {q : List Step} (unhidden : Unhidden vars q)
    (distinct : Distinct vars) {t : BaseType} (at_ : NodeAt vars q t) (escape : '%' ∉ dotted (Step.names q)) :
    lookupVar vars (dotted (Step.names q)) = some t := by
  induction unhidden generalizing t with
  | top mem =>
      cases distinct.first mem at_
      exact lookupVar_found (by
        rw [www2id_of_not_mem escape]
        exact find_name distinct.names mem)
  | @field vars fields id name kind q mem plain alone below ih =>
      have inside := distinct.first mem at_
      have some_ := below.ne_nil
      cases inside with
      | here => exact absurd rfl some_
      | @field _ _ _ _ c _ rest mem' inside =>
          have at_' : NodeAt fields (.field c.name :: rest) t := ⟨c, mem', rest, rfl, inside⟩
          have rest' := ih (distinct.below (.top mem)) at_' (escape_tail some_ escape)
          rw [Step.names_field]
          exact (lookupVar_container distinct mem some_ plain alone escape).trans rest'
  | @element vars fields id id' decl name name' kind q mem plain alone rest_ other below ih =>
      have inside := distinct.first mem at_
      have some_ := below.ne_nil
      have template : NodeAt vars [.field name, .element] (.constructor id' name' kind fields) :=
        NodeAt.append (.top mem) (.element (.here _))
      cases inside with
      | element inside =>
          cases inside with
          | here => exact absurd rfl some_
          | @field _ _ _ _ c _ rest mem' inside =>
              have at_' : NodeAt fields (.field c.name :: rest) t := ⟨c, mem', rest, rfl, inside⟩
              have plain' := escape_tail some_ escape
              have rest' := ih (distinct.below template) at_' plain'
              rw [Step.names_field, Step.names_element]
              refine (lookupVar_container distinct mem some_ plain alone escape).trans ?_
              simp only [lookupField, www2id_of_not_mem plain']
              exact (if_neg (not_or.mpr ⟨rest_, other⟩)).trans rest'

theorem escape_of_found {vars : List BaseType} (distinct : Distinct vars) {q : List Step} {t : BaseType}
    (at_ : NodeAt vars q t) (found : lookupVar vars (dotted (Step.names q)) = some t) :
    '%' ∉ dotted (Step.names q) := by
  intro escaped
  obtain ⟨q', at_', short⟩ := lookupVar_at found
  rw [distinct.unique at_' at_] at short
  exact absurd (length_www2id_lt escaped) (Nat.not_lt.mpr short)

/-- What the lookup of a longer name has to go through when it finds the variable. -/
theorem container_of_found {vars : List BaseType} (distinct : Distinct vars) {c t : BaseType} (mem : c ∈ vars)
    {rest : List Step} (at_ : NodeAt vars (.field c.name :: rest) t) (some_ : Step.names rest ≠ [])
    (escape : '%' ∉ dotted (c.name :: Step.names rest))
    (found : lookupVar vars (dotted (c.name :: Step.names rest)) = some t) :
    '.' ∉ c.name ∧ (∀ b ∈ vars, b.name ≠ dotted (c.name :: Step.names rest)) ∧
      lookupField (dotted (Step.names rest)) (some c) = some t := by
  have whole := www2id_of_not_mem escape
  have alone : ∀ b ∈ vars, b.name ≠ dotted (c.name :: Step.names rest) := by
    intro b mem' same
    have here : lookupVar vars (dotted (c.name :: Step.names rest)) = some b :=
      lookupVar_found (by rw [whole, ← same]; exact find_name distinct.names mem')
    obtain rfl := Option.some.inj (here.symm.trans found)
    have short := distinct.unique (NodeAt.top mem') at_
    rw [← (List.cons.inj short).2] at some_
    exact some_ rfl
  have plain : '.' ∉ c.name := by
    intro dot
    obtain ⟨before, behind, split⟩ : ∃ before behind, splitFirst '.' c.name = some (before, behind) := by
      cases split : splitFirst '.' c.name with
      | none => exact absurd dot (splitFirst_eq_none.mp split)
      | some parts => exact ⟨parts.1, parts.2, rfl⟩
    obtain ⟨missing, eq⟩ := of_splitFirst split
    have parts : splitFirst '.' (dotted (c.name :: Step.names rest)) =
        some (before, behind ++ '.' :: dotted (Step.names rest)) := by
      rw [dotted_cons c.name some_, eq, List.append_assoc, List.cons_append]
      exact splitFirst_append missing _
    rw [lookupVar_field (by rw [whole]; exact find_alone alone) (by rw [whole]; exact parts)] at found
    cases led : lookupVar vars before with
    | none => rw [led] at found; cases found
    | some d =>
        rw [led] at found
        obtain ⟨q, at_', short⟩ := lookupVar_at led
        obtain ⟨q', below⟩ := lookupField_at found
        have same := distinct.unique (at_'.append below) at_
        obtain ⟨b, -, rest', rfl, -⟩ := at_'
        have named : b.name = c.name := Step.field.inj (List.cons.inj same).1
        have long := length_head_le_dotted b.name (Step.names rest')
        have less := length_www2id before
        have size := congrArg List.length eq
        rw [Step.names_field] at short
        rw [named] at long
        rw [List.length_append, List.length_cons] at size
        rw [named] at short
        omega
  refine ⟨plain, alone, ?_⟩
  rw [← found, lookupVar_container distinct mem some_ plain alone escape]

theorem names_ne_nil_of_last {q : List Step} (some_ : q ≠ []) (last : q.getLast? ≠ some .element) :
    Step.names q ≠ [] := by
  rw [List.getLast?_eq_some_getLast some_] at last
  have mem := List.getLast_mem some_
  cases final : q.getLast some_ with
  | element => rw [final] at last; exact absurd rfl last
  | field name =>
      rw [final] at mem
      have named : name ∈ Step.names q := List.mem_filterMap.mpr ⟨_, mem, rfl⟩
      exact List.ne_nil_of_mem named

theorem unhidden_of_found {vars : List BaseType} (distinct : Distinct vars) {q : List Step} {t : BaseType}
    (declared : Declared vars q t) (found : lookupVar vars (dotted (Step.names q)) = some t) :
    Unhidden vars q := by
  induction size : q.length using Nat.strong_induction_on generalizing vars q with
  | _ n ih =>
  subst size
  obtain ⟨at_, last⟩ := declared
  have escape := escape_of_found distinct at_ found
  obtain ⟨b, mem, rest, rfl, below⟩ := id at_
  cases below with
  | here => exact .top mem
  | @field id name kind fields c _ q mem' below =>
      have at_' : NodeAt fields (.field c.name :: q) t := ⟨c, mem', q, rfl, below⟩
      obtain ⟨plain, alone, found'⟩ := container_of_found distinct mem at_ at_'.names_ne_nil escape found
      have declared : Declared fields (.field c.name :: q) t := ⟨at_', by simpa using last⟩
      exact .field mem plain alone (ih _ (by simp) (distinct.below (.top mem)) declared found' rfl)
  | @element id decl name proto _ q below =>
      cases below with
      | here => simp at last
      | @element id' decl' name' proto' _ q below =>
          have some_ : Step.names (.element :: .element :: q) ≠ [] :=
            names_ne_nil_of_last (by simp) (by simpa using last)
          obtain ⟨-, -, found'⟩ := container_of_found distinct mem at_ some_ escape found
          simp only [lookupField] at found'
          split at found'
          · obtain rfl := Option.some.inj found'
            have template : NodeAt vars [.field name, .element] (.array id' name' decl' proto') :=
              NodeAt.append (.top mem) (.element (.here _))
            simpa using distinct.unique template at_
          · cases found'
      | @field id' name' kind fields c _ q mem' below =>
          have at_' : NodeAt fields (.field c.name :: q) t := ⟨c, mem', q, rfl, below⟩
          have some_ := at_'.names_ne_nil
          obtain ⟨plain, alone, found'⟩ := container_of_found distinct mem at_ some_ escape found
          have template : NodeAt vars [.field name, .element] (.constructor id' name' kind fields) :=
            NodeAt.append (.top mem) (.element (.here _))
          have escape' : '%' ∉ dotted (Step.names (.field c.name :: q)) := escape_tail some_ escape
          rw [Step.names_element] at found'
          simp only [lookupField, www2id_of_not_mem escape'] at found'
          split at found'
          · obtain rfl := Option.some.inj found'
            simpa using distinct.unique template at_
          · rename_i shown
            obtain ⟨rest_, other⟩ := not_or.mp shown
            have declared : Declared fields (.field c.name :: q) t := ⟨at_', by simpa using last⟩
            exact .element mem plain alone rest_ other
              (ih _ (by simp) (distinct.below template) declared found' rfl)

/-- A variable is found under its name exactly when the name has no escape and nothing in
    it hides the variable. -/
theorem lookupVar_iff {vars : List BaseType} (distinct : Distinct vars) {q : List Step} {t : BaseType}
    (declared : Declared vars q t) :
    lookupVar vars (dotted (Step.names q)) = some t ↔ '%' ∉ dotted (Step.names q) ∧ Unhidden vars q := by
  constructor
  · intro found
    exact ⟨escape_of_found distinct declared.node found, unhidden_of_found distinct declared found⟩
  · rintro ⟨escape, unhidden⟩
    exact lookupVar_of_unhidden unhidden distinct declared.node escape

end Libdap.Dap4
