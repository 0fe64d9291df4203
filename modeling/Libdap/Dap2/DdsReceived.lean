import Libdap.Dap2.DdsParser
import Mathlib.Tactic.Tauto

/-! # What the parser makes of the tokens of a DDS

For each variable, what it becomes, when it is not an error.
-/

namespace Libdap.Dap2.Text

open Dap4 (Name www2id)

/-- The name of a variable, which must not be that one keyword. -/
def receivedName (n : Name) : Option Name :=
  if Keyword.ofWord (id2www n) = some .scan_dataset then none else some (www2id (store_word (id2www n)))

/-- A dimension, whose name must be no keyword. -/
def Dimension.received (dim : Dimension) : Option Dimension :=
  if dim.name = [] then some dim
  else if Keyword.ofWord (id2www dim.name) = none then some ⟨dim.size, www2id (store_word (id2www dim.name))⟩
  else none

def Dimension.receivedIn : List Dimension → Option (List Dimension)
  | [] => some []
  | dim :: dims => do
    let dim ← dim.received
    let dims ← receivedIn dims
    some (dim :: dims)

def Declarator.received (d : Declarator) : Option Declarator := do
  let name ← receivedName d.name
  let dims ← Dimension.receivedIn (d.shape.getD [])
  some (if dims = [] then ⟨name, none⟩ else ⟨www2id name, some dims⟩)

namespace Variable

/-- A declaration that passes its check. -/
def checked (v : Variable) : Option Variable := if v.check_semantics then some v else none

mutual

def received : Variable → Option Variable
  | .simple type d => do
    let d ← d.received
    checked (.simple type d)
  | .ctor kind vars d => do
    let vars ← receivedIn false vars
    let d ← d.received
    checked (.ctor kind vars d)
  | .grid array maps d => do
    let array ← array.received
    if array.isArray then
      let maps ← receivedIn true maps
      let d ← d.received
      checked (.grid array maps d)
    else none

/-- The variables, of which those in a Grid must be arrays. -/
def receivedIn (arrays : Bool) : List Variable → Option (List Variable)
  | [] => some []
  | v :: vs => do
    let v ← received v
    if !arrays || v.isArray then
      let vs ← receivedIn arrays vs
      some (v :: vs)
    else none

end

mutual

/-- The part after a declaration: a Grid forgets the one that it is in. -/
def partAfter : Variable → Part → Part
  | .simple .., part => part
  | .ctor _ vars _, part => partAfterIn vars part
  | .grid .., _ => .nil

def partAfterIn : List Variable → Part → Part
  | [], part => part
  | v :: vs, part => partAfterIn vs (partAfter v part)

end

mutual

theorem partAfter_cases (v : Variable) (part : Part) : v.partAfter part = part ∨ v.partAfter part = .nil := by
  cases v with
  | simple => exact .inl (by rw [partAfter])
  | ctor kind vars d =>
      rw [partAfter]
      exact partAfterIn_cases vars part
  | grid => exact .inr (by rw [partAfter])

theorem partAfterIn_cases (vs : List Variable) (part : Part) : partAfterIn vs part = part ∨ partAfterIn vs part = .nil := by
  cases vs with
  | nil => exact .inl (by rw [partAfterIn])
  | cons v vs =>
      rw [partAfterIn]
      rcases partAfter_cases v part with same | same <;> rw [same]
      · exact partAfterIn_cases vs part
      · exact .inr ((or_self _).mp (partAfterIn_cases vs .nil))

end

end Variable

namespace State

variable {s : State} {v : Variable}

theorem run_cons (s : State) (t : Token) (ts : List Token) : run s (t :: ts) = (s.step t).bind (run · ts) := rfl

theorem run_append (s : State) (ts us : List Token) : run s (ts ++ us) = (run s ts).bind (run · us) := by
  induction ts generalizing s with
  | nil => rfl
  | cons t ts ih =>
      rw [List.cons_append, run_cons, run_cons]
      cases s.step t with
      | none => rfl
      | some s' => exact ih s'

/-! ## Declarators -/

/-- A number is a word, and is read as it is. -/
structure Reads (n : Int) : Prop where
  word : Keyword.ofWord (showInt n) = none
  check : check_int32 (store_word (showInt n)) = true
  value : atoi (store_word (showInt n)) = n

theorem run_step {s s' : State} {t : Token} (step : s.step t = some s') (ts : List Token) : run s (t :: ts) = run s' ts := by
  rw [run_cons, step, Option.bind_some]

theorem run_error {s : State} {t : Token} (step : s.step t = none) (ts : List Token) : run s (t :: ts) = none := by
  rw [run_cons, step, Option.bind_none]

theorem step_unnamed {s : State} {v : Variable} {word : Name} (here : s.current = some v) (check : check_int32 word = true) :
    { s with expect := .subscriptEnd word }.step (.sign ']') =
      some { s with expect := .dimension, current := some (append_dim ⟨atoi word, []⟩ v) } := by
  change addDim _ _ _ _ = _
  rw [addDim, here, Option.bind_eq_bind, Option.bind_some, if_pos check]
  rfl

theorem step_named {s : State} {v : Variable} {id word : Name} (here : s.current = some v) (check : check_int32 word = true) :
    { s with expect := .size id }.step (.word word) =
      some { s with expect := .sizeEnd, current := some (append_dim ⟨atoi word, www2id id⟩ v) } := by
  change addDim _ _ _ _ = _
  rw [addDim, here, Option.bind_eq_bind, Option.bind_some, if_pos check]

theorem run_dimension (reads : ∀ n, Ints.FitsI32 n → Reads n) (s : State) (v : Variable) {dim : Dimension}
    (fits : Ints.FitsI32 dim.size) (ts : List Token) :
    run { s with expect := .dimension, current := some v } (dim.tokens ++ ts) = dim.received.bind fun dim' =>
      run { s with expect := .dimension, current := some (append_dim dim' v) } ts := by
  obtain ⟨word, check, value⟩ := reads dim.size fits
  obtain ⟨size, name⟩ := dim
  have number : tokenOf (showInt size) = .word (store_word (showInt size)) := by
    rw [tokenOf, word]
  by_cases empty : name = []
  · subst empty
    have sized := step_unnamed (s := { s with current := some v }) rfl check
    rw [Dimension.tokens, if_neg (not_not.mpr rfl), Dimension.received, if_pos rfl, number, Option.bind_some]
    rw [List.cons_append, List.cons_append, List.cons_append, run_step rfl, run_step rfl, run_step sized, value]
    rfl
  · rw [Dimension.tokens, if_pos empty, Dimension.received, if_neg empty, number]
    cases keyword : Keyword.ofWord (id2www name) with
    | none =>
        have token : tokenOf (id2www name) = .word (store_word (id2www name)) := by
          rw [tokenOf, keyword]
        have sized := @step_named { s with current := some v } _ (store_word (id2www name)) _ rfl check
        rw [token, if_pos rfl, Option.bind_some]
        rw [List.cons_append, List.cons_append, List.cons_append, List.cons_append, List.cons_append, run_step rfl,
          run_step rfl, run_step rfl, run_step sized, run_step rfl, value]
        rfl
    | some k =>
        have token : tokenOf (id2www name) = .keyword k (store_word (id2www name)) := by
          rw [tokenOf, keyword]
        rw [token, if_neg (by nofun), Option.bind_none, List.cons_append, List.cons_append, run_step rfl]
        exact run_error rfl _

/-- The dimensions are appended one after the other. -/
def append_dims (v : Variable) (dims : List Dimension) : Variable := dims.foldl (fun v dim => append_dim dim v) v

theorem run_dimensions (reads : ∀ n, Ints.FitsI32 n → Reads n) (s : State) (v : Variable) {dims : List Dimension}
    (fits : ∀ dim ∈ dims, Ints.FitsI32 dim.size) (ts : List Token) :
    run { s with expect := .dimension, current := some v } (dims.flatMap Dimension.tokens ++ ts) =
      (Dimension.receivedIn dims).bind fun dims' =>
        run { s with expect := .dimension, current := some (append_dims v dims') } ts := by
  induction dims generalizing v with
  | nil => rfl
  | cons dim dims ih =>
      obtain ⟨first, others⟩ := List.forall_mem_cons.mp fits
      rw [List.flatMap_cons, List.append_assoc, run_dimension reads s v first, Dimension.receivedIn]
      cases dim.received with
      | none => rfl
      | some dim' =>
          simp only [Option.bind_eq_bind, Option.bind_some]
          rw [ih (append_dim dim' v) others]
          cases Dimension.receivedIn dims <;> rfl

theorem withDeclarator_declarator (d : Declarator) (v : Variable) : (v.withDeclarator d).declarator = d := by
  cases v <;> rfl

theorem withDeclarator_twice (d d' : Declarator) (v : Variable) : (v.withDeclarator d).withDeclarator d' = v.withDeclarator d' := by
  cases v <;> rfl

theorem append_dims_array (v : Variable) (name : Name) (dims dims' : List Dimension) :
    append_dims (v.withDeclarator ⟨name, some dims⟩) dims' = v.withDeclarator ⟨name, some (dims ++ dims')⟩ := by
  induction dims' generalizing dims with
  | nil =>
      rw [List.append_nil]
      rfl
  | cons dim dims' ih =>
      have first : append_dim dim (v.withDeclarator ⟨name, some dims⟩) = v.withDeclarator ⟨name, some (dims ++ [dim])⟩ := by
        rw [append_dim, Variable.shape, Variable.name, withDeclarator_declarator]
        exact withDeclarator_twice _ _ v
      rw [append_dims, List.foldl_cons, first]
      exact (ih (dims ++ [dim])).trans (by rw [List.append_assoc]; rfl)

/-- The first dimension makes an array. -/
theorem append_dims_new (v : Variable) (name : Name) (dims : List Dimension) :
    append_dims (v.withDeclarator ⟨name, none⟩) dims =
      v.withDeclarator (if dims = [] then ⟨name, none⟩ else ⟨www2id name, some dims⟩) := by
  cases dims with
  | nil => rfl
  | cons dim dims =>
      have first : append_dim dim (v.withDeclarator ⟨name, none⟩) = v.withDeclarator ⟨www2id name, some [dim]⟩ := by
        rw [append_dim, Variable.shape, Variable.name, withDeclarator_declarator]
        exact withDeclarator_twice _ _ v
      rw [append_dims, List.foldl_cons, first, if_neg (List.cons_ne_nil _ _)]
      exact append_dims_array v (www2id name) [dim] dims

/-- All sizes are of type `int`. -/
def Fits (d : Declarator) : Prop := ∀ dim ∈ d.shape.getD [], Ints.FitsI32 dim.size

/-- From the name to the semicolon. -/
theorem run_declarator (reads : ∀ n, Ints.FitsI32 n → Reads n) (s : State) (v : Variable) {d : Declarator} (fits : Fits d) :
    run { s with expect := .name, current := some (v.withDeclarator ⟨[], none⟩) } d.tokens = d.received.bind fun d' =>
      declare { s with expect := .dimension, current := some (v.withDeclarator d') } := by
  have named (w : Name) (ts : List Token) :
      ({ s with expect := .name, current := some (v.withDeclarator ⟨[], none⟩) }.set_name w).bind (run · ts) =
        run { s with expect := .dimension, current := some (v.withDeclarator ⟨www2id w, none⟩) } ts := by
    rw [set_name, Option.bind_eq_bind, Option.bind_some, Option.bind_some, Variable.shape, withDeclarator_declarator,
      withDeclarator_twice]
  have rest (w : Name) : run { s with expect := .dimension, current := some (v.withDeclarator ⟨www2id w, none⟩) }
      ((d.shape.getD []).flatMap Dimension.tokens ++ [.sign ';']) =
      (Dimension.receivedIn (d.shape.getD [])).bind fun dims => declare { s with
        expect := .dimension
        current := some (v.withDeclarator (if dims = [] then ⟨www2id w, none⟩ else ⟨www2id (www2id w), some dims⟩)) } := by
    rw [run_dimensions reads s _ fits]
    cases Dimension.receivedIn (d.shape.getD []) with
    | none => rfl
    | some dims =>
        rw [Option.bind_some, Option.bind_some, append_dims_new, run_cons]
        exact Option.bind_fun_some _
  rw [Declarator.tokens, run_cons, Declarator.received, receivedName, tokenOf]
  cases keyword : Keyword.ofWord (id2www d.name) with
  | none =>
      change ({ s with expect := .name, current := some (v.withDeclarator ⟨[], none⟩) }.set_name _).bind _ = _
      rw [named, rest, if_neg (by nofun)]
      cases Dimension.receivedIn (d.shape.getD []) <;> rfl
  | some k =>
      change (if k = .scan_dataset then none else
        { s with expect := .name, current := some (v.withDeclarator ⟨[], none⟩) }.set_name _).bind _ = _
      by_cases dataset : k = .scan_dataset
      · rw [if_pos dataset, if_pos (congrArg some dataset)]
        rfl
      · rw [if_neg dataset, if_neg fun same => dataset (Option.some.inj same), named, rest]
        cases Dimension.receivedIn (d.shape.getD []) <;> rfl

/-! ## Declarations -/

section

variable (fr : List Frame) (vars : List Variable) (nm : Name) (ctor : List Building) (done : Bool)

/-- Where a declaration can begin. -/
def ready (part : Part) : State := ⟨.declaration, fr, vars, nm, ctor, none, part, false, done⟩

/-- What a declaration that is read does. -/
def enter (part : Part) (v : Variable) : Option State := ((ready fr vars nm ctor done part).add_entry v).map declared

variable {fr vars nm ctor done}

theorem declare_eq (expect : Expect) (part : Part) (ofGrid : Bool) (v : Variable) :
    declare ⟨expect, fr, vars, nm, ctor, some v, part, ofGrid, done⟩ =
      v.checked.bind (enter fr vars nm ctor done (if ofGrid then .nil else part)) := by
  rw [declare, Option.bind_eq_bind, Option.bind_some, Variable.checked]
  split
  · rw [Option.bind_some, enter, ready, add_entry, add_entry]
    cases ctor with
    | nil => cases fr with
      | nil => rfl
      | cons f fr => cases f <;> rfl
    | cons top ctor =>
        simp only [Option.bind_eq_bind]
        cases top.add_var v (if ofGrid then .nil else part) with
        | none => rfl
        | some top => cases fr with
          | nil => rfl
          | cons f fr => cases f <;> rfl
  · rfl

end

/-- A Grid that has its array gets maps, which are arrays. -/
theorem add_var_maps (vars : List Variable) (v : Variable) {part : Part} (after : part ≠ .array) :
    Building.add_var ⟨.grid, true, vars⟩ v part = if v.isArray then some ⟨.grid, true, vars ++ [v]⟩ else none := by
  cases array : v.isArray <;> cases part <;> simp_all [Building.add_var]

/-- The first is its array. -/
theorem add_var_array (v : Variable) {part : Part} (before : part ≠ .maps) :
    Building.add_var ⟨.grid, false, []⟩ v part = if v.isArray then some ⟨.grid, true, [v]⟩ else none := by
  cases array : v.isArray <;> cases part <;> simp_all [Building.add_var, Building.set_array]

/-- What the parser does with the tokens of a variable. -/
def Understands (v : Variable) : Prop := ∀ fr vars nm ctor done part,
  run (ready fr vars nm ctor done part) v.tokens = v.received.bind (enter fr vars nm ctor done (v.partAfter part))

/-- The declarations in a row, in a place where each is added to a list. -/
theorem run_declarations {F : List Variable → Part → State} {arrays : Bool} {Allowed : Part → Prop} {vs : List Variable}
    (each : ∀ v ∈ vs, ∀ acc part, Allowed part → run (F acc part) v.tokens = v.received.bind fun v' =>
      if !arrays || v'.isArray then some (F (acc ++ [v']) (v.partAfter part)) else none)
    (forgets : Allowed .nil) {acc : List Variable} {part : Part} (allowed : Allowed part) :
    run (F acc part) (Variable.tokensIn vs) =
      (Variable.receivedIn arrays vs).map fun vs' => F (acc ++ vs') (Variable.partAfterIn vs part) := by
  induction vs generalizing acc part with
  | nil =>
      rw [Variable.tokensIn, Variable.receivedIn, Variable.partAfterIn, Option.map_some, List.append_nil]
      rfl
  | cons v vs ih =>
      obtain ⟨first, others⟩ := List.forall_mem_cons.mp each
      have after : Allowed (v.partAfter part) := by
        rcases v.partAfter_cases part with same | same <;> rw [same]
        · exact allowed
        · exact forgets
      rw [Variable.tokensIn, run_append, first acc part allowed, Variable.receivedIn, Variable.partAfterIn]
      cases v.received with
      | none => rfl
      | some v' =>
          simp only [Option.bind_eq_bind, Option.bind_some]
          split
          · rw [Option.bind_some, ih others after]
            cases Variable.receivedIn arrays vs with
            | none => rfl
            | some vs' =>
                rw [Option.bind_some, Option.map_some, Option.map_some, List.append_assoc]
                rfl
          · rfl

section

variable {nm : Name} {ctor : List Building} {done : Bool} {vs : List Variable}

/-- In the dataset. -/
theorem run_dataset (understands : ∀ v ∈ vs, Understands v) (part : Part) :
    run (ready [] [] nm [] done part) (Variable.tokensIn vs) =
      (Variable.receivedIn false vs).map fun vs' => ready [] vs' nm [] done (Variable.partAfterIn vs part) := by
  refine @run_declarations (fun acc part => ready [] acc nm [] done part) _ (fun _ => True) _ ?_ trivial [] _ trivial
  intro v mem acc part _
  rw [understands v mem]
  rfl

/-- In a Structure or a Sequence. -/
theorem run_members {fr : List Frame} {vars : List Variable} (kind : Kind) (understands : ∀ v ∈ vs, Understands v)
    (part : Part) :
    run (ready (.plain :: fr) vars nm (⟨.plain kind, false, []⟩ :: ctor) done part) (Variable.tokensIn vs) =
      (Variable.receivedIn false vs).map fun vs' =>
        ready (.plain :: fr) vars nm (⟨.plain kind, false, vs'⟩ :: ctor) done (Variable.partAfterIn vs part) := by
  refine @run_declarations (fun acc part => ready (.plain :: fr) vars nm (⟨.plain kind, false, acc⟩ :: ctor) done part) _
    (fun _ => True) _ ?_ trivial [] _ trivial
  intro v mem acc part _
  rw [understands v mem]
  rfl

/-- In the maps of a Grid. -/
theorem run_maps {fr : List Frame} {vars : List Variable} (array : Variable) (understands : ∀ v ∈ vs, Understands v) :
    run (ready (.gridMaps :: fr) vars nm (⟨.grid, true, [array]⟩ :: ctor) done .maps) (Variable.tokensIn vs) =
      (Variable.receivedIn true vs).map fun vs' =>
        ready (.gridMaps :: fr) vars nm (⟨.grid, true, array :: vs'⟩ :: ctor) done (Variable.partAfterIn vs .maps) := by
  refine @run_declarations
    (fun acc part => ready (.gridMaps :: fr) vars nm (⟨.grid, true, array :: acc⟩ :: ctor) done part) _
    (· ≠ .array) _ ?_ (by decide) [] _ (by decide)
  intro v mem acc part allowed
  rw [understands v mem]
  have after : v.partAfter part ≠ .array := by
    rcases v.partAfter_cases part with same | same <;> rw [same]
    · exact allowed
    · decide
  refine congrArg _ (funext fun v' => ?_)
  rw [enter, ready, add_entry]
  simp only [add_var_maps _ v' after, Bool.not_true, Bool.false_or]
  cases v'.isArray <;> rfl

end

section

variable {nm : Name} {ctor : List Building} {done : Bool} {fr : List Frame} {vars : List Variable} {part : Part}

theorem understands_simple (reads : ∀ n, Ints.FitsI32 n → Reads n) (type : SimpleType) {d : Declarator} (fits : Fits d) :
    Understands (.simple type d) := by
  intro fr vars nm ctor done part
  rw [Variable.tokens, run_step rfl, Variable.received, Variable.partAfter]
  have rest := run_declarator reads ⟨.name, fr, vars, nm, ctor, none, part, false, done⟩ (.simple type d) fits
  refine Eq.trans rest ?_
  cases d.received with
  | none => rfl
  | some d' => exact declare_eq .dimension part false (.simple type d')

theorem understands_ctor (reads : ∀ n, Ints.FitsI32 n → Reads n) (kind : Kind) {vs : List Variable} {d : Declarator}
    (understands : ∀ v ∈ vs, Understands v) (fits : Fits d) : Understands (.ctor kind vs d) := by
  intro fr vars nm ctor done part
  have opens : run (ready fr vars nm ctor done part) (Variable.tokens (.ctor kind vs d)) =
      run (ready (.plain :: fr) vars nm (⟨.plain kind, false, []⟩ :: ctor) done part)
        (Variable.tokensIn vs ++ .sign '}' :: d.tokens) := by
    rw [Variable.tokens]
    cases kind <;> rfl
  rw [opens, run_append, run_members kind understands, Variable.received, Variable.partAfter]
  cases Variable.receivedIn false vs with
  | none => rfl
  | some vs' =>
      rw [Option.map_some, Option.bind_some, run_step rfl]
      have rest := run_declarator reads ⟨.name, fr, vars, nm, ctor, none, Variable.partAfterIn vs part, false, done⟩
        (.ctor kind vs' d) fits
      refine Eq.trans rest ?_
      cases d.received with
      | none => rfl
      | some d' => exact declare_eq .dimension (Variable.partAfterIn vs part) false (.ctor kind vs' d')

theorem understands_grid (reads : ∀ n, Ints.FitsI32 n → Reads n) {array : Variable} {maps : List Variable} {d : Declarator}
    (first : Understands array) (understands : ∀ v ∈ maps, Understands v) (fits : Fits d) :
    Understands (.grid array maps d) := by
  intro fr vars nm ctor done part
  have opens : run (ready fr vars nm ctor done part) (Variable.tokens (.grid array maps d)) =
      run (ready (.gridArray :: fr) vars nm (⟨.grid, false, []⟩ :: ctor) done .array)
        (array.tokens ++ .word "Maps".toList :: .sign ':' :: (Variable.tokensIn maps ++ .sign '}' :: d.tokens)) := by
    rw [Variable.tokens]
    rfl
  have before : array.partAfter .array ≠ .maps := by
    rcases array.partAfter_cases .array with same | same <;> rw [same] <;> decide
  rw [opens, run_append, first, Variable.received, Variable.partAfter]
  cases array.received with
  | none => rfl
  | some array' =>
      simp only [Option.bind_eq_bind, Option.bind_some]
      rw [enter, ready, add_entry]
      simp only [add_var_array array' before]
      split
      · have labelled (after : Part) : run ⟨.mapsLabel, fr, vars, nm, ⟨.grid, true, [array']⟩ :: ctor, none, after, false, done⟩
            (.word "Maps".toList :: .sign ':' :: (Variable.tokensIn maps ++ .sign '}' :: d.tokens)) =
            run (ready (.gridMaps :: fr) vars nm (⟨.grid, true, [array']⟩ :: ctor) done .maps)
              (Variable.tokensIn maps ++ .sign '}' :: d.tokens) := rfl
        refine (labelled (array.partAfter .array)).trans ?_
        rw [run_append, run_maps array' understands]
        cases Variable.receivedIn true maps with
        | none => rfl
        | some maps' =>
            rw [Option.map_some, Option.bind_some, run_step rfl]
            have rest := run_declarator reads
              ⟨.name, fr, vars, nm, ctor, none, Variable.partAfterIn maps .maps, true, done⟩ (.grid array' maps' d) fits
            refine Eq.trans rest ?_
            cases d.received with
            | none => rfl
            | some d' => exact declare_eq .dimension (Variable.partAfterIn maps .maps) true (.grid array' maps' d')
      · rfl

end

end State

end Libdap.Dap2.Text
