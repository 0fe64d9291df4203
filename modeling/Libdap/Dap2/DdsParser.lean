import Libdap.Dap2.DdsText

/-! # The parser of a DDS

The grammar of `dds.yy` as a machine that takes one token after the other. Its actions work on
the stack of constructors, the current variable and the part of a Grid, which are global. Each
error ends the parse.
-/

namespace Libdap.Dap2.Text

open Dap4 (Name www2id)

/-! ## Numbers -/

/-- The sign of a number. A word has no blanks before it. -/
def signOf : Name → Bool × Name
  | '-' :: s => (true, s)
  | '+' :: s => (false, s)
  | s => (false, s)

/-- The base that `strtol` finds for base 0, and what is left after the mark of it. -/
def baseOf : Name → Nat × Name
  | '0' :: x :: digit :: s =>
    if x ∈ ['x', 'X'] ∧ digit ∈ "0123456789abcdefABCDEF".toList then (16, digit :: s) else (8, '0' :: x :: digit :: s)
  | '0' :: s => (8, '0' :: s)
  | s => (10, s)

def digitOf (c : Char) : Nat :=
  if c.isDigit then c.toNat - 48 else if c.isLower then c.toNat - 87 else if c.isUpper then c.toNat - 55 else 36

/-- All characters are the digits of one number, and it is an `int`. -/
def check_int32 (val : Name) : Bool :=
  let (negative, s) := signOf val
  let (base, digits) := baseOf s
  let magnitude : Int := digits.foldl (fun n c => n * base + digitOf c) 0
  digits ≠ [] ∧ digits.all (fun c => digitOf c < base) ∧ Ints.FitsI32 (if negative then -magnitude else magnitude)

def atoi (val : Name) : Int :=
  let (negative, s) := signOf val
  let magnitude : Int := (s.takeWhile Char.isDigit).foldl (fun n c => n * 10 + digitOf c) 0
  if negative then -magnitude else magnitude

/-! ## Variables -/

namespace Variable

def declarator : Variable → Declarator
  | simple _ d | ctor _ _ d | grid _ _ d => d

def withDeclarator (d : Declarator) : Variable → Variable
  | simple type _ => simple type d
  | ctor kind vars _ => ctor kind vars d
  | grid array maps _ => grid array maps d

def name (v : Variable) : Name := v.declarator.name

def shape (v : Variable) : Option (List Dimension) := v.declarator.shape

def isArray (v : Variable) : Bool := v.shape.isSome

def hasSimpleElements : Variable → Bool
  | simple .. => true
  | ctor .. | grid .. => false

/-- `Grid::check_semantics` for a map and the dimension of the array that it is for. -/
def mapMatches (array map : Variable) (dim : Dimension) : Bool :=
  array.name ≠ map.name ∧ map.hasSimpleElements ∧ map.shape.map (List.map Dimension.size) = some [dim.size]

def gridMatches (array : Variable) (maps : List Variable) : Bool :=
  match array.shape with
  | none => false
  | some dims => array.hasSimpleElements ∧ maps.length = dims.length ∧ ∀ x ∈ maps.zip dims, mapMatches array x.1 x.2

/-- `check_semantics`, without the members. That of an array does not look at its template. -/
def check_semantics (v : Variable) : Bool :=
  !v.name.isEmpty &&
    match v.shape, v with
    | some dims, _ => !dims.isEmpty
    | none, simple .. => true
    | none, ctor _ vars _ => decide (vars.map name).Nodup
    | none, grid array maps _ => gridMatches array maps

mutual

/-- `check_semantics` with the members, which an array does not have. -/
def checkAll : Variable → Bool
  | .simple type d => check_semantics (.simple type d)
  | .ctor kind vars d => check_semantics (.ctor kind vars d) && (d.shape.isSome || checkAllIn vars)
  | .grid array maps d => check_semantics (.grid array maps d) && (d.shape.isSome || (checkAll array && checkAllIn maps))

def checkAllIn : List Variable → Bool
  | [] => true
  | v :: vs => checkAll v && checkAllIn vs

end

end Variable

/-- `DDS::check_semantics`, with all variables. -/
def DDS.check_semantics (dds : DDS) : Bool :=
  !dds.d_name.isEmpty && decide (dds.vars.map Variable.name).Nodup && Variable.checkAllIn dds.vars

inductive Part where
  | nil
  | array
  | maps
  deriving Repr, DecidableEq

/-- The types of constructors. -/
inductive Ctor where
  | plain (kind : Kind)
  | grid
  deriving Repr, DecidableEq

/-- A constructor on the stack. -/
structure Building where
  type : Ctor
  d_is_array_set : Bool
  vars : List Variable

namespace Building

def set_array (b : Building) (bt : Variable) : Building := { b with d_is_array_set := true, vars := bt :: b.vars }

/-- `add_var`, which throws for some variables of a Grid. -/
def add_var (b : Building) (bt : Variable) (part : Part) : Option Building :=
  match b.type with
  | .plain _ => some { b with vars := b.vars ++ [bt] }
  | .grid =>
    if part = .array ∧ b.d_is_array_set then none
    else if !bt.isArray then none
    else match part with
      | .array => some (b.set_array bt)
      | .maps => some { b with vars := b.vars ++ [bt] }
      | .nil => some (if b.d_is_array_set then { b with vars := b.vars ++ [bt] } else b.set_array bt)

/-- The variable, as it leaves the stack. The declaration in its first part has given an array to a Grid. -/
def finish (b : Building) : Option Variable :=
  match b.type, b.d_is_array_set, b.vars with
  | .plain kind, _, vars => some (.ctor kind vars ⟨[], none⟩)
  | .grid, true, array :: maps => some (.grid array maps ⟨[], none⟩)
  | .grid, _, _ => none

end Building

/-! ## The machine -/

/-- What comes next. -/
inductive Expect where
  | dataset
  | datasetBrace
  | declaration
  | brace (type : Ctor)
  | arrayLabel
  | arrayColon (label : Name)
  | mapsLabel
  | mapsColon (label : Name)
  | name
  | dimension
  | subscript
  | subscriptEnd (word : Name)
  | size (id : Name)
  | sizeEnd
  | datasetName
  | datasetEnd
  deriving Repr, DecidableEq

/-- What the declarations are in: a Structure or a Sequence, or a part of a Grid. -/
inductive Frame where
  | plain
  | gridArray
  | gridMaps
  deriving Repr, DecidableEq

structure State where
  expect : Expect
  /-- What is open, from the inside. -/
  frames : List Frame
  vars : List Variable
  d_name : Name
  ctor : List Building
  current : Option Variable
  part : Part
  /-- The declaration is that of a Grid. -/
  ofGrid : Bool
  /-- There has been a dataset. -/
  done : Bool

namespace State

def start : State := ⟨.dataset, [], [], [], [], none, .nil, false, false⟩

def add_entry (s : State) (v : Variable) : Option State :=
  match s.ctor with
  | [] => some { s with vars := s.vars ++ [v], current := none }
  | top :: ctor => do
    let top ← top.add_var v s.part
    some { s with ctor := top :: ctor, current := none }

/-- After a declaration. There is one of the array of a Grid. -/
def declared (s : State) : State :=
  match s.frames with
  | .gridArray :: frames => { s with expect := .mapsLabel, frames, ofGrid := false }
  | _ => { s with expect := .declaration, ofGrid := false }

/-- The end of a declaration. -/
def declare (s : State) : Option State := do
  let v ← s.current
  if v.check_semantics then
    let s ← add_entry { s with part := if s.ofGrid then .nil else s.part } v
    some s.declared
  else none

/-- The end of what is open, which is what `current` is from there on. -/
def close (s : State) (frames : List Frame) (ofGrid : Bool) : Option State := do
  let top ← s.ctor.head?
  let v ← top.finish
  some { s with expect := .name, frames, current := some v, ctor := s.ctor.tail, ofGrid }

/-- An array gets another dimension; what is not an array becomes one, with the name that it has. -/
def append_dim (dim : Dimension) (v : Variable) : Variable :=
  match v.shape with
  | some dims => v.withDeclarator ⟨v.name, some (dims ++ [dim])⟩
  | none => v.withDeclarator ⟨www2id v.name, some [dim]⟩

/-- `set_name` of the current variable. -/
def set_name (s : State) (word : Name) : Option State := do
  let v ← s.current
  some { s with expect := .dimension, current := some (v.withDeclarator ⟨www2id word, v.shape⟩) }

/-- A dimension with the size that a word is and with a name. -/
def addDim (s : State) (next : Expect) (word name : Name) : Option State := do
  let v ← s.current
  if check_int32 word then
    some { s with expect := next, current := some (append_dim ⟨atoi word, www2id name⟩ v) }
  else none

def is_keyword (id : Name) (keyword : Name) : Bool := id.map Char.toLower = keyword

def step (s : State) (t : Token) : Option State :=
  match s.expect, t with
  | .dataset, .keyword .scan_dataset _ => some { s with expect := .datasetBrace }
  | .datasetBrace, .sign '{' => some { s with expect := .declaration }
  | .declaration, .keyword (.scan_simple type) _ =>
    some { s with expect := .name, current := some (.simple type ⟨[], none⟩), ofGrid := false }
  | .declaration, .keyword .scan_structure _ =>
    some { s with expect := .brace (.plain .dods_structure_c), ctor := ⟨.plain .dods_structure_c, false, []⟩ :: s.ctor }
  | .declaration, .keyword .scan_sequence _ =>
    some { s with expect := .brace (.plain .dods_sequence_c), ctor := ⟨.plain .dods_sequence_c, false, []⟩ :: s.ctor }
  | .declaration, .keyword .scan_grid _ =>
    some { s with expect := .brace .grid, ctor := ⟨.grid, false, []⟩ :: s.ctor }
  | .declaration, .sign '}' =>
    match s.frames with
    | [] => some { s with expect := .datasetName }
    | .plain :: frames => s.close frames false
    | .gridMaps :: frames => s.close frames true
    | .gridArray :: _ => none
  | .brace (.plain _), .sign '{' => some { s with expect := .declaration, frames := .plain :: s.frames }
  | .brace .grid, .sign '{' => some { s with expect := .arrayLabel }
  | .arrayLabel, .word w => some { s with expect := .arrayColon w }
  | .arrayColon w, .sign ':' =>
    if is_keyword w "array".toList then
      some { s with expect := .declaration, frames := .gridArray :: s.frames, part := .array }
    else none
  | .mapsLabel, .word w => some { s with expect := .mapsColon w }
  | .mapsColon w, .sign ':' =>
    if is_keyword w "maps".toList then
      some { s with expect := .declaration, frames := .gridMaps :: s.frames, part := .maps }
    else none
  | .name, .word w => s.set_name w
  | .name, .keyword k w => if k = .scan_dataset then none else s.set_name w
  | .dimension, .sign '[' => some { s with expect := .subscript }
  | .dimension, .sign ';' => s.declare
  | .subscript, .word w => some { s with expect := .subscriptEnd w }
  | .subscriptEnd w, .sign ']' => s.addDim .dimension w []
  | .subscriptEnd w, .sign '=' => some { s with expect := .size w }
  | .size id, .word w => s.addDim .sizeEnd w id
  | .sizeEnd, .sign ']' => some { s with expect := .dimension }
  | .datasetName, .word w => some { s with expect := .datasetEnd, d_name := w }
  | .datasetName, .keyword _ w => some { s with expect := .datasetEnd, d_name := w }
  | .datasetEnd, .sign ';' => some { s with expect := .dataset, done := true }
  | _, _ => none

def run (s : State) : List Token → Option State
  | [] => some s
  | t :: ts => do
    let s ← s.step t
    run s ts

end State

/-- `ddsparse`, and what it leaves in a new DDS. -/
def parseTokens (tokens : List Token) : Option DDS := do
  let s ← State.start.run tokens
  if s.expect = .dataset ∧ s.done then some ⟨s.vars, s.d_name⟩ else none

/-- `DDS::parse` -/
def parse (text : Name) : Option DDS := parseTokens (scan text)

end Libdap.Dap2.Text
