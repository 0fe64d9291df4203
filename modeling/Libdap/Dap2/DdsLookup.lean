import Libdap.Dap2.Names
import Libdap.Dap4.LookupVar

/-! # Variables of a DDS by their names

A dataset looks for a whole name first, then for what stands before the first dot and, behind
that, in the variable it finds; at last it looks everywhere for a variable of that name. The
variables that are passed on the way go on a stack, and marking marks them too.
-/

namespace Libdap.Dap2

open Dap4

/-- What is found, and what has been put on the stack. -/
abbrev Search := Option BaseType × List Nat

mutual
/-- `Constructor::var` that looks for a leaf. -/
def leafVar : BaseType → Name → Search
  | .constructor id _ _ vars, name => leafMatch (some id) vars (www2id name)
  | .simple .., _ | .array .., _ => (none, [])

/-- `m_leaf_match` of a constructor, and `DDS::leaf_match`, which puts nothing on the stack. -/
def leafMatch (self : Option Nat) : List BaseType → Name → Search
  | [], _ => (none, [])
  | b :: vars, name =>
      if b.name = name then (some b, self.toList)
      else
        match leafVar b name with
        | (some found, s) => (some found, s ++ self.toList)
        | (none, _) => leafMatch self vars name
end

/-- `Constructor::var` that looks for an exact match, which is `lookupVar` but for the stack. -/
def exactVar (self : Nat) (vars : List BaseType) (name : Name) : Search :=
  let n := www2id name
  match vars.find? (·.name = n) with
  | some found => (some found, [self])
  | none =>
    match _parts : splitFirst '.' n with
    | none => (none, [])
    | some (aggregate, field) =>
      match lookupVar vars aggregate with
      | none => (none, [])
      | some (.simple ..) => (none, [self])
      | some (.constructor id _ _ fields) =>
        let (found, s) := exactVar id fields field
        (found, self :: s)
      | some (.array id _ _ proto) =>
        let f := www2id field
        if f = [] ∨ proto.name = f then (some proto, [self, id])
        else
          match proto with
          | .constructor id' _ _ fields =>
            let (found, s) := exactVar id' fields f
            (found, self :: (s ++ if found.isSome then [id] else []))
          | .simple .. | .array .. => (none, [self])
termination_by name.length
decreasing_by
  all_goals
    have whole := length_www2id name
    have shorter : (www2id name).length = aggregate.length + (field.length + 1) := length_of_splitFirst _parts
    have rest := length_www2id field
    omega

/-- `var` of what a dataset has found, with an exact match. -/
def fieldVar (field : Name) : Option BaseType → Search
  | none | some (.simple ..) => (none, [])
  | some (.constructor id _ _ fields) => exactVar id fields field
  | some (.array id _ _ proto) =>
    let f := www2id field
    if f = [] ∨ proto.name = f then (some proto, [id])
    else
      match proto with
      | .constructor id' _ _ fields =>
        let (found, s) := exactVar id' fields f
        (found, s ++ if found.isSome then [id] else [])
      | .simple .. | .array .. => (none, [])

namespace Dds

variable (dds : List BaseType)

/-- `DDS::var` without a container, with the `DDS::exact_match` in it. -/
def var (name : Name) : Search :=
  let n := www2id name
  let exact :=
    match dds.find? (·.name = n) with
    | some found => (some found, [])
    | none =>
      match _parts : splitFirst '.' n with
      | none => (none, [])
      | some (aggregate, field) =>
        let (agg, s) := var aggregate
        let (found, s') := fieldVar field agg
        (found, s ++ s')
  match exact with
  | (some found, s) => (some found, s)
  | (none, s) =>
    let (found, s') := leafMatch none dds n
    (found, s ++ s')
termination_by name.length
decreasing_by
  have whole := length_www2id name
  have shorter : (www2id name).length = aggregate.length + (field.length + 1) := length_of_splitFirst _parts
  omega

/-- What `DDS::mark` marks: a variable and all in it, and what is on the stack. -/
def mark (name : Name) : Except String (List Nat) :=
  match var dds name with
  | (none, _) => throw ("Could not find variable " ++ String.ofList name)
  | (some variable_, s) => pure (variable_.ids ++ s)

end Dds

/-! ## The stack -/

theorem exactVar_found {self : Nat} {vars : List BaseType} {name : Name} {b : BaseType}
    (found : vars.find? (·.name = www2id name) = some b) : exactVar self vars name = (some b, [self]) := by
  rw [exactVar]
  simp only [found]

theorem exactVar_field {self : Nat} {vars : List BaseType} {name aggregate field : Name} {c : BaseType}
    (missed : vars.find? (·.name = www2id name) = none)
    (parts : splitFirst '.' (www2id name) = some (aggregate, field)) (led : lookupVar vars aggregate = some c) :
    exactVar self vars name = ((fieldVar field (some c)).1, self :: (fieldVar field (some c)).2) := by
  rw [exactVar]
  simp only [missed]
  split
  · rename_i whole
    rw [parts] at whole
    cases whole
  · rename_i a f both
    obtain ⟨rfl, rfl⟩ := Prod.mk.inj (Option.some.inj (parts.symm.trans both))
    rw [led]
    cases c with
    | simple => rfl
    | constructor => rfl
    | array id name decl proto =>
        simp only [fieldVar]
        split
        · rfl
        · cases proto <;> rfl

theorem exactVar_missed {self : Nat} {vars : List BaseType} {name : Name}
    (missed : vars.find? (·.name = www2id name) = none)
    (parts : ∀ aggregate field, splitFirst '.' (www2id name) = some (aggregate, field) →
      lookupVar vars aggregate = none) : (exactVar self vars name).1 = none := by
  rw [exactVar]
  simp only [missed]
  split
  · rfl
  · rename_i a f both
    rw [parts a f both]

/-- A search with a stack finds what it finds without one. -/
theorem exactVar_fst (self : Nat) (vars : List BaseType) (name : Name) :
    (exactVar self vars name).1 = lookupVar vars name := by
  induction size : name.length using Nat.strong_induction_on generalizing self vars name with
  | _ n ih =>
  subst size
  cases here : vars.find? (·.name = www2id name) with
  | some b => rw [exactVar_found here, lookupVar_found here]
  | none =>
      cases parts : splitFirst '.' (www2id name) with
      | none =>
          rw [exactVar_missed here (by simp [parts]), lookupVar_missed here parts]
      | some both =>
          obtain ⟨aggregate, field⟩ := both
          have shorter := length_of_splitFirst parts
          have whole := length_www2id name
          have decoded := length_www2id field
          rw [lookupVar_field here parts]
          cases led : lookupVar vars aggregate with
          | none =>
              rw [exactVar_missed here fun a f both => by
                obtain ⟨rfl, -⟩ := Prod.mk.inj (Option.some.inj (parts.symm.trans both))
                exact led]
              rfl
          | some c =>
              rw [exactVar_field here parts led]
              cases c with
              | simple => rfl
              | constructor id name' kind fields => exact ih field.length (by omega) id fields field rfl
              | array id name' decl proto =>
                  simp only [fieldVar, lookupField]
                  split
                  · rfl
                  · cases proto with
                    | simple | array => rfl
                    | constructor id' _ _ fields => exact ih (www2id field).length (by omega) id' fields _ rfl

theorem fieldVar_fst (field : Name) (c : Option BaseType) : (fieldVar field c).1 = lookupField field c := by
  cases c with
  | none => rfl
  | some c =>
      cases c with
      | simple => rfl
      | constructor id name kind fields => exact exactVar_fst id fields field
      | array id name decl proto =>
          simp only [fieldVar, lookupField]
          split
          · rfl
          · cases proto with
            | simple | array => rfl
            | constructor id' _ _ fields => exact exactVar_fst id' fields _

/-- A variable with this number encloses the one at a place. -/
def Encloses (vars : List BaseType) (q : List Step) (x : Nat) : Prop :=
  ∃ front back c, q = front ++ back ∧ back ≠ [] ∧ NodeAt vars front c ∧ c.id = x

theorem encloses_top {vars : List BaseType} {name : Name} {x : Nat} : ¬Encloses vars [.field name] x := by
  rintro ⟨front, back, c, same, some_, at_, -⟩
  obtain ⟨b, -, rest, rfl, -⟩ := at_
  obtain ⟨-, none_⟩ := List.cons.inj same
  exact some_ (List.append_eq_nil_iff.mp none_.symm).2

theorem encloses_field {vars fields : List BaseType} (distinct : Distinct vars) {id : Nat} {name : Name}
    {kind : Constructor.Kind} (mem : .constructor id name kind fields ∈ vars) {q : List Step} (some_ : q ≠ []) {x : Nat} :
    Encloses vars (.field name :: q) x ↔ x = id ∨ Encloses fields q x := by
  constructor
  · rintro ⟨front, back, c, same, more, at_, rfl⟩
    obtain ⟨b, mem', rest, rfl, below⟩ := at_
    obtain ⟨named, rfl⟩ := List.cons.inj same
    obtain rfl := eq_of_name distinct.names mem mem' (Step.field.inj named)
    cases below with
    | here => exact .inl rfl
    | @field _ _ _ _ d _ rest mem'' below => exact .inr ⟨_, back, c, rfl, more, ⟨d, mem'', rest, rfl, below⟩, rfl⟩
  · rintro (rfl | ⟨front, back, c, rfl, more, at_, rfl⟩)
    · exact ⟨[.field name], q, _, rfl, some_, .top mem, rfl⟩
    · exact ⟨.field name :: front, back, c, rfl, more, (NodeAt.top mem).fields at_, rfl⟩

theorem encloses_element {vars fields : List BaseType} (distinct : Distinct vars) {id id' decl : Nat} {name name' : Name}
    {kind : Constructor.Kind} (mem : .array id name decl (.constructor id' name' kind fields) ∈ vars) {q : List Step}
    (some_ : q ≠ []) {x : Nat} :
    Encloses vars (.field name :: .element :: q) x ↔ x = id ∨ x = id' ∨ Encloses fields q x := by
  have template : NodeAt vars [.field name, .element] (.constructor id' name' kind fields) :=
    NodeAt.append (.top mem) (.element (.here _))
  constructor
  · rintro ⟨front, back, c, same, more, at_, rfl⟩
    obtain ⟨b, mem', rest, rfl, below⟩ := at_
    obtain ⟨named, others⟩ := List.cons.inj same
    obtain rfl := eq_of_name distinct.names mem mem' (Step.field.inj named)
    cases below with
    | here => exact .inl rfl
    | element below =>
        obtain ⟨-, rfl⟩ := List.cons.inj others
        cases below with
        | here => exact .inr (.inl rfl)
        | @field _ _ _ _ d _ rest mem'' below =>
            exact .inr (.inr ⟨_, back, c, rfl, more, ⟨d, mem'', rest, rfl, below⟩, rfl⟩)
  · rintro (rfl | rfl | ⟨front, back, c, rfl, more, at_, rfl⟩)
    · exact ⟨[.field name], .element :: q, _, rfl, List.cons_ne_nil _ _, .top mem, rfl⟩
    · exact ⟨[.field name, .element], q, _, rfl, some_, template, rfl⟩
    · exact ⟨.field name :: .element :: front, back, c, rfl, more, template.fields at_, rfl⟩

/-- What a search for a variable that nothing hides puts on the stack. -/
structure Finds (vars : List BaseType) (q : List Step) (t : BaseType) (owner : Option Nat) (r : Search) : Prop where
  found : r.1 = some t
  stack : ∀ x, x ∈ r.2 ↔ owner = some x ∨ Encloses vars q x

/-- A search behind the first part of a name, and the one that goes on from it. -/
theorem exactVar_finds {vars : List BaseType} (distinct : Distinct vars) {c : BaseType} (mem : c ∈ vars)
    {q : List Step} (some_ : Step.names q ≠ []) (plain : '.' ∉ c.name)
    (alone : ∀ b ∈ vars, b.name ≠ dotted (c.name :: Step.names q))
    (escape : '%' ∉ dotted (c.name :: Step.names q)) {t : BaseType}
    (finds : Finds vars (.field c.name :: q) t none (fieldVar (dotted (Step.names q)) (some c))) (self : Nat) :
    Finds vars (.field c.name :: q) t (some self) (exactVar self vars (dotted (c.name :: Step.names q))) := by
  obtain ⟨missed, parts, -, container⟩ := container_parts distinct mem some_ plain alone escape
  rw [exactVar_field missed parts container]
  refine ⟨finds.found, fun x => ?_⟩
  rw [List.mem_cons, finds.stack, Option.some.injEq, eq_comm]
  simp

/-- What is found by the name of a variable that nothing hides, and the stack it leaves. -/
theorem unhidden_finds {vars : List BaseType} {q : List Step} (unhidden : Unhidden vars q) (distinct : Distinct vars)
    {t : BaseType} (at_ : NodeAt vars q t) (escape : '%' ∉ dotted (Step.names q)) :
    (∀ self, Finds vars q t (some self) (exactVar self vars (dotted (Step.names q)))) ∧
      ∀ c names, c ∈ vars → Step.names q = c.name :: names → names ≠ [] →
        Finds vars q t none (fieldVar (dotted names) (some c)) := by
  induction unhidden generalizing t with
  | top mem =>
      cases distinct.first mem at_
      refine ⟨fun self => ?_, fun c names _ same some_ => absurd (List.cons.inj same).2.symm some_⟩
      rw [show dotted (Step.names [.field _]) = _ from rfl, exactVar_found (by
        rw [www2id_of_not_mem escape]
        exact find_name distinct.names mem)]
      exact ⟨rfl, fun x => by simp [encloses_top, eq_comm]⟩
  | @field vars fields id name kind q mem plain alone below ih =>
      have inside := distinct.first mem at_
      have some_ := below.ne_nil
      cases inside with
      | here => exact absurd rfl some_
      | @field _ _ _ _ d _ rest mem' inside =>
          have at_' : NodeAt fields (.field d.name :: rest) t := ⟨d, mem', rest, rfl, inside⟩
          have rest' := (ih (distinct.below (.top mem)) at_' (escape_tail some_ escape)).1 id
          have finds : Finds vars (.field name :: .field d.name :: rest) t none
              (fieldVar (dotted (Step.names (.field d.name :: rest))) (some (.constructor id name kind fields))) := by
            refine ⟨rest'.found, fun x => (rest'.stack x).trans ?_⟩
            simp only [encloses_field distinct mem (List.cons_ne_nil _ _), Option.some.injEq, eq_comm, reduceCtorEq, false_or]
          refine ⟨exactVar_finds distinct mem some_ plain alone escape finds, fun c names mem'' same _ => ?_⟩
          obtain ⟨named, rfl⟩ := List.cons.inj same
          obtain rfl := eq_of_name distinct.names mem mem'' named
          exact finds
  | @element vars fields id id' decl name name' kind q mem plain alone rest_ other below ih =>
      have inside := distinct.first mem at_
      have some_ := below.ne_nil
      have template : NodeAt vars [.field name, .element] (.constructor id' name' kind fields) :=
        NodeAt.append (.top mem) (.element (.here _))
      cases inside with
      | element inside =>
          cases inside with
          | here => exact absurd rfl some_
          | @field _ _ _ _ d _ rest mem' inside =>
              have at_' : NodeAt fields (.field d.name :: rest) t := ⟨d, mem', rest, rfl, inside⟩
              have plain' := escape_tail some_ escape
              have rest' := (ih (distinct.below template) at_' plain').1 id'
              have finds : Finds vars (.field name :: .element :: .field d.name :: rest) t none
                  (fieldVar (dotted (Step.names (.field d.name :: rest)))
                    (some (.array id name decl (.constructor id' name' kind fields)))) := by
                have hidden : ¬(dotted (Step.names (.field d.name :: rest)) = [] ∨
                    (BaseType.constructor id' name' kind fields).name = dotted (Step.names (.field d.name :: rest))) :=
                  not_or.mpr ⟨rest_, other⟩
                simp only [fieldVar, www2id_of_not_mem plain', if_neg hidden]
                refine ⟨rest'.found, fun x => ?_⟩
                simp only [rest'.found, Option.isSome_some, if_true, List.mem_append, List.mem_singleton, rest'.stack,
                  encloses_element distinct mem (List.cons_ne_nil _ _), Option.some.injEq, reduceCtorEq, false_or]
                tauto
              refine ⟨exactVar_finds (q := .element :: .field d.name :: rest) distinct mem some_ plain alone escape finds,
                fun c names mem'' same _ => ?_⟩
              obtain ⟨named, rfl⟩ := List.cons.inj same
              obtain rfl := eq_of_name distinct.names mem mem'' named
              exact finds

/-! ## A dataset -/

/-- No variable, and no element template, has a dot in its name. -/
def DotFree (vars : List BaseType) : Prop := ∀ q b, NodeAt vars q b → '.' ∉ b.name

theorem DotFree.top {vars : List BaseType} (plain : DotFree vars) {b : BaseType} (mem : b ∈ vars) : '.' ∉ b.name :=
  plain _ b (.top mem)

/-- The search for a leaf does not find a name with a dot. -/
theorem leafMatch_dot {name : Name} (escape : '%' ∉ name) (dot : '.' ∈ name) (self : Option Nat)
    {vars : List BaseType} (plain : DotFree vars) : leafMatch self vars name = (none, []) := by
  induction size : sizeOf vars using Nat.strong_induction_on generalizing vars self with
  | _ n ih =>
  subst size
  cases vars with
  | nil => rw [leafMatch]
  | cons b vars =>
      have mine : b.name ≠ name := by
        rintro rfl
        exact plain.top List.mem_cons_self dot
      have others : DotFree vars := by
        rintro q d ⟨c, mem, rest⟩
        exact plain q d ⟨c, List.mem_cons_of_mem _ mem, rest⟩
      have tail := ih (sizeOf vars) (by simp only [List.cons.sizeOf_spec]; omega) self others rfl
      rw [leafMatch, if_neg mine]
      cases b with
      | simple => rw [leafVar, tail]
      | array => rw [leafVar, tail]
      | constructor id name' kind fields =>
          have inside : DotFree fields := fun q d at_ =>
            plain _ d ((NodeAt.top List.mem_cons_self).fields at_)
          have below := ih (sizeOf fields)
            (by simp only [List.cons.sizeOf_spec, BaseType.constructor.sizeOf_spec]; omega) (some id) inside rfl
          rw [leafVar, www2id_of_not_mem escape, below, tail]

namespace Dds

variable {dds : List BaseType}

theorem var_top {name : Name} {b : BaseType} (found : dds.find? (·.name = www2id name) = some b) :
    var dds name = (some b, []) := by
  rw [var]
  simp only [found]

/-- The search for a name with a dot, when no variable has the whole name. -/
theorem var_field {name aggregate : Name} (field : Name) (missed : dds.find? (·.name = www2id name) = none)
    (parts : splitFirst '.' (www2id name) = some (aggregate, field)) {c : BaseType}
    (led : var dds aggregate = (some c, [])) :
    var dds name =
      match fieldVar field (some c) with
      | (some found, s) => (some found, s)
      | (none, s) => ((leafMatch none dds (www2id name)).1, s ++ (leafMatch none dds (www2id name)).2) := by
  rw [var]
  simp only [missed]
  split <;> rename_i whole <;> split at whole
  · cases whole
  · rename_i a f both
    obtain ⟨rfl, rfl⟩ := Prod.mk.inj (Option.some.inj (parts.symm.trans both))
    rw [led] at whole
    obtain ⟨found, stack⟩ := Prod.mk.inj whole
    rw [← Prod.mk.eta (p := fieldVar field (some c)), found, ← stack]
    rfl
  · rename_i none_
    rw [parts] at none_
    cases none_
  · rename_i a f both
    obtain ⟨rfl, rfl⟩ := Prod.mk.inj (Option.some.inj (parts.symm.trans both))
    rw [led] at whole
    obtain ⟨missing, stack⟩ := Prod.mk.inj whole
    rw [← Prod.mk.eta (p := fieldVar field (some c)), missing, ← stack]
    rfl

/-- A variable has been resolved and marked as its name says. -/
structure Resolved (dds : List BaseType) (q : List Step) (t : BaseType) : Prop where
  found : (var dds (id2www (dotted (Step.names q)))).1 = some t
  marked : ∃ ids, mark dds (id2www (dotted (Step.names q))) = .ok ids ∧ ∀ x, x ∈ ids ↔ x ∈ t.ids ∨ Encloses dds q x

theorem resolved_of_var {q : List Step} {t : BaseType} {s : List Nat}
    (found : var dds (id2www (dotted (Step.names q))) = (some t, s)) (stack : ∀ x, x ∈ s ↔ Encloses dds q x) :
    Resolved dds q t where
  found := by rw [found]
  marked := by
    refine ⟨t.ids ++ s, ?_, fun x => ?_⟩
    · rw [mark, found]
      rfl
    · rw [List.mem_append, stack]

theorem top_resolved (distinct : Distinct dds) {b : BaseType} (mem : b ∈ dds) (bytes : Bytes b.name) :
    Resolved dds [.field b.name] b := by
  have decoded : www2id (id2www (dotted (Step.names [.field b.name]))) = b.name := www2id_cancels bytes
  refine resolved_of_var (var_top ?_) fun x => (iff_false_right encloses_top).mpr List.not_mem_nil
  rw [decoded]
  exact find_name distinct.names mem

/-- What a dataset does with the name of a variable in one of its own. -/
theorem var_below (distinct : Distinct dds) (dotFree : DotFree dds) {c : BaseType} (mem : c ∈ dds) {names : List Name}
    (some_ : names ≠ []) (bytes : Bytes (dotted (c.name :: names))) (escape : '%' ∉ dotted (c.name :: names)) :
    var dds (id2www (dotted (c.name :: names))) = fieldVar (dotted names) (some c) := by
  have decoded := www2id_cancels bytes
  have dot : '.' ∈ dotted (c.name :: names) := by
    rw [dotted_cons c.name some_]
    exact List.mem_append_right _ List.mem_cons_self
  have alone : ∀ b ∈ dds, b.name ≠ dotted (c.name :: names) := by
    intro b mem' same
    rw [← same] at dot
    exact dotFree.top mem' dot
  obtain ⟨-, parts, plain, -⟩ := container_parts distinct mem some_ (dotFree.top mem) alone escape
  rw [www2id_of_not_mem escape] at parts
  have led : var dds c.name = (some c, []) := var_top (by
    rw [plain]
    exact find_name distinct.names mem)
  rw [var_field _ (by rw [decoded]; exact find_alone alone) (by rw [decoded]; exact parts) led, decoded,
    leafMatch_dot escape dot none dotFree]
  rcases fieldVar (dotted names) (some c) with ⟨_ | found, s⟩ <;> simp

theorem field_resolved (distinct : Distinct dds) (dotFree : DotFree dds) {q : List Step} {t : BaseType}
    (at_ : NodeAt dds q t) (bytes : Bytes (dotted (Step.names q))) (escape : '%' ∉ dotted (Step.names q))
    (unhidden : Unhidden dds q) : Resolved dds q t := by
  obtain ⟨c, mem, rest, rfl, below⟩ := id at_
  by_cases some_ : Step.names rest = []
  · have only : rest = [] := by
      generalize whole : Step.field c.name :: rest = q at unhidden
      cases unhidden with
      | top => exact (List.cons.inj whole).2
      | field _ _ _ inside =>
          obtain ⟨-, rfl⟩ := List.cons.inj whole
          exact absurd some_ inside.ne_nil
      | element _ _ _ _ _ inside =>
          obtain ⟨-, rfl⟩ := List.cons.inj whole
          exact absurd some_ inside.ne_nil
    subst only
    cases below
    exact top_resolved distinct mem bytes
  · have finds := (unhidden_finds unhidden distinct at_ escape).2 c _ mem rfl some_
    refine resolved_of_var (s := (fieldVar (dotted (Step.names rest)) (some c)).2) ?_ fun x => ?_
    · rw [Step.names_field, var_below distinct dotFree mem some_ bytes escape]
      exact Prod.ext finds.found rfl
    · exact (finds.stack x).trans (by simp)

theorem unhidden_of_resolved (distinct : Distinct dds) (dotFree : DotFree dds) {q : List Step} {t : BaseType}
    (declared : Declared dds q t) (bytes : Bytes (dotted (Step.names q))) (escape : '%' ∉ dotted (Step.names q))
    (resolved : Resolved dds q t) : Unhidden dds q := by
  obtain ⟨c, mem, rest, rfl, below⟩ := id declared.node
  by_cases top : rest = []
  · subst top
    exact .top mem
  · have some_ := names_ne_nil_of_last top (by
      have last := declared.last
      rwa [List.getLast?_cons_of_ne_nil top] at last)
    have found := resolved.found
    rw [Step.names_field, var_below distinct dotFree mem some_ bytes escape, fieldVar_fst] at found
    refine ((lookupVar_iff distinct declared).mp ?_).2
    rw [Step.names_field, lookupVar_container distinct mem some_ (dotFree.top mem) ?_ escape, found]
    intro b mem' same
    refine dotFree.top mem' ?_
    rw [same, dotted_cons c.name some_]
    exact List.mem_append_right _ List.mem_cons_self

/-- A variable is found and marked by its name when it is not in another, or when no name has an escape in it
    and nothing hides the variable; for a name without escapes, it is not found otherwise. -/
theorem resolved_exact (distinct : Distinct dds) (dotFree : DotFree dds) {q : List Step} {t : BaseType}
    (declared : Declared dds q t) (bytes : Bytes (dotted (Step.names q))) :
    (q = [.field t.name] ∨ ('%' ∉ dotted (Step.names q) ∧ Unhidden dds q) → Resolved dds q t) ∧
      ('%' ∉ dotted (Step.names q) → (Resolved dds q t ↔ Unhidden dds q)) := by
  refine ⟨?_, fun escape => ⟨unhidden_of_resolved distinct dotFree declared bytes escape,
    field_resolved distinct dotFree declared.node bytes escape⟩⟩
  rintro (rfl | ⟨escape, unhidden⟩)
  · obtain ⟨b, mem, rest, same, below⟩ := declared.node
    obtain ⟨-, rfl⟩ := List.cons.inj same
    cases below
    exact top_resolved distinct mem bytes
  · exact field_resolved distinct dotFree declared.node bytes escape unhidden

/-! A Structure with an escape in the name of one of its members, and an array of Structures that have a member with
the name of the array. -/

section

def lettered : List BaseType :=
  [.constructor 0 ['s'] .dods_structure_c [.simple 1 "a%62".toList, .simple 2 ['c']],
    .array 3 ['a'] 4 (.constructor 4 ['a'] .dods_structure_c [.simple 5 ['a']])]

private theorem node_lettered {q : List Step} {t : BaseType} (node : NodeAt lettered q t) :
    (q, t) ∈ [([.field ['s']], .constructor 0 ['s'] .dods_structure_c [.simple 1 "a%62".toList, .simple 2 ['c']]),
      ([.field ['s'], .field "a%62".toList], .simple 1 "a%62".toList),
      ([.field ['s'], .field ['c']], .simple 2 ['c']),
      ([.field ['a']], .array 3 ['a'] 4 (.constructor 4 ['a'] .dods_structure_c [.simple 5 ['a']])),
      ([.field ['a'], .element], .constructor 4 ['a'] .dods_structure_c [.simple 5 ['a']]),
      ([.field ['a'], .element, .field ['a']], .simple 5 ['a'])] := by
  obtain ⟨b, mem, rest, rfl, below⟩ := node
  rcases List.mem_pair.mp mem with rfl | rfl
  · cases below with
    | here => simp [BaseType.name]
    | field mem below =>
        rcases List.mem_pair.mp mem with rfl | rfl <;> cases below <;> simp [BaseType.name]
  · cases below with
    | here => simp [BaseType.name]
    | element below =>
        cases below with
        | here => simp [BaseType.name]
        | field mem below =>
            obtain rfl := List.mem_singleton.mp mem
            cases below
            simp [BaseType.name]

private theorem lettered_distinct : Distinct lettered where
  names := by decide
  fields := by
    intro q id name kind fields node
    have mem := node_lettered node
    simp only [List.mem_cons, Prod.mk.injEq, reduceCtorEq, and_false, BaseType.constructor.injEq, false_or,
      List.not_mem_nil, or_false] at mem
    rcases mem with ⟨-, -, -, -, rfl⟩ | ⟨-, -, -, -, rfl⟩ <;> decide
  unique := by
    intro q q' t node node'
    have mem := node_lettered node
    have mem' := node_lettered node'
    simp only [List.mem_cons, Prod.mk.injEq, List.not_mem_nil, or_false] at mem mem'
    rcases mem with ⟨rfl, rfl⟩ | ⟨rfl, rfl⟩ | ⟨rfl, rfl⟩ | ⟨rfl, rfl⟩ | ⟨rfl, rfl⟩ | ⟨rfl, rfl⟩ <;>
      exact Eq.symm (by simpa using mem')

private theorem lettered_dotFree : DotFree lettered := by
  intro q b node
  have mem := node_lettered node
  simp only [List.mem_cons, Prod.mk.injEq, List.not_mem_nil, or_false] at mem
  rcases mem with ⟨-, rfl⟩ | ⟨-, rfl⟩ | ⟨-, rfl⟩ | ⟨-, rfl⟩ | ⟨-, rfl⟩ | ⟨-, rfl⟩ <;> decide

private theorem member_declared : Declared lettered [.field ['s'], .field ['c']] (.simple 2 ['c']) where
  node := ⟨_, List.mem_cons_self, _, rfl, .field (List.mem_cons_of_mem _ List.mem_cons_self) (.here _)⟩
  last := by simp

private theorem lettered_unhidden : Unhidden lettered [.field ['s'], .field ['c']] :=
  .field List.mem_cons_self (by decide) (by
    intro b mem
    rcases List.mem_pair.mp mem with rfl | rfl <;> decide) (.top (List.mem_cons_of_mem _ List.mem_cons_self))

theorem member_resolved : Resolved lettered [.field ['s'], .field ['c']] (.simple 2 ['c']) :=
  (resolved_exact lettered_distinct lettered_dotFree member_declared (by
    intro c mem
    rw [show dotted (Step.names [.field ['s'], .field ['c']]) = ['s', '.', 'c'] from rfl] at mem
    simp only [List.mem_cons, List.not_mem_nil, or_false] at mem
    rcases mem with rfl | rfl | rfl <;> decide)).1
    (.inr ⟨by decide, lettered_unhidden⟩)

/-- The name `s.a%62` is decoded again at every level, so that `ab` is looked for. -/
private theorem escaped_lost : (var lettered (id2www "s.a%62".toList)).1 = none := by
  have led : var lettered ['s'] = (some (.constructor 0 ['s'] .dods_structure_c
      [.simple 1 "a%62".toList, .simple 2 ['c']]), []) := var_top rfl
  have inside : fieldVar "a%62".toList (some (.constructor 0 ['s'] .dods_structure_c
      [.simple 1 "a%62".toList, .simple 2 ['c']])) = (none, []) :=
    Prod.ext (by rw [fieldVar_fst]; exact lookupVar_missed rfl rfl) (by
      rw [fieldVar, exactVar]; rfl)
  rw [var_field "a%62".toList rfl rfl led, inside]
  rfl

/-- What is found by the name `a.a` is the template for the elements. -/
private theorem template_found : (var lettered (id2www "a.a".toList)).1 =
    some (.constructor 4 ['a'] .dods_structure_c [.simple 5 ['a']]) := by
  have led : var lettered ['a'] = (some (.array 3 ['a'] 4 (.constructor 4 ['a'] .dods_structure_c
      [.simple 5 ['a']])), []) := var_top rfl
  rw [var_field ['a'] rfl rfl led]
  rfl

/-- Neither variable is resolved by its name. -/
theorem members_unresolved : Distinct lettered ∧ DotFree lettered ∧
    (Declared lettered [.field ['s'], .field "a%62".toList] (.simple 1 "a%62".toList) ∧
      ¬Resolved lettered [.field ['s'], .field "a%62".toList] (.simple 1 "a%62".toList)) ∧
    (Declared lettered [.field ['a'], .element, .field ['a']] (.simple 5 ['a']) ∧
      ¬Resolved lettered [.field ['a'], .element, .field ['a']] (.simple 5 ['a'])) := by
  refine ⟨lettered_distinct, lettered_dotFree, ⟨⟨?_, by simp⟩, fun resolved => ?_⟩, ⟨?_, by simp⟩, fun resolved => ?_⟩
  · exact ⟨_, List.mem_cons_self, _, rfl, .field List.mem_cons_self (.here _)⟩
  · cases escaped_lost.symm.trans resolved.found
  · exact ⟨_, List.mem_cons_of_mem _ List.mem_cons_self, _, rfl, .element (.field List.mem_cons_self (.here _))⟩
  · cases template_found.symm.trans resolved.found

end

end Dds

end Libdap.Dap2
