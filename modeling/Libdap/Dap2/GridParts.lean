import Libdap.Dap2.Array
import Libdap.Dap2.Vector

/-! # The parts of a Grid

A Grid keeps its array and its maps in the one vector of a `Constructor`. A flag says
whether the first variable is the array. What is meant is an array, or none, and a list
of maps.
-/

namespace Libdap.Dap2.Grids

inductive Body where
  | array (a : Array)
  /-- A variable of any other class. -/
  | other (sendP : Bool)
  deriving DecidableEq, Repr

/-- A variable. One address stands for one object. -/
structure Variable where
  address : Nat
  name : String
  body : Body
  deriving DecidableEq, Repr

namespace Variable

/-- `dynamic_cast<Array *>` -/
def array? (v : Variable) : Option Array :=
  match v.body with
  | .array a => some a
  | .other _ => none

def isArray (v : Variable) : Bool := v.array?.isSome

/-- `send_p` -/
def sendP (v : Variable) : Bool :=
  match v.body with
  | .array a => a.sendP
  | .other sendP => sendP

/-- `ptr_duplicate`, the copy being at `new`. -/
def duplicate (new : Nat) (v : Variable) : Variable := { v with address := new }

end Variable

/-- `Array *`, when it is not null. -/
abbrev ArrayPtr := { v : Variable // v.isArray = true }

def ArrayPtr.duplicate (new : Nat) (p : ArrayPtr) : ArrayPtr := ⟨p.1.duplicate new, p.2⟩

/-- A copy at `new` if there is to be one, or the object itself. -/
def ArrayPtr.kept (p : ArrayPtr) : Option Nat → ArrayPtr
  | some new => p.duplicate new
  | none => p

inductive Part where
  | array
  | maps
  | nil
  deriving DecidableEq, Repr

structure Grid where
  isArraySet : Bool
  vars : List Variable
  deriving DecidableEq, Repr

/-- From one iterator to another. -/
def between {α : Type} (l : List α) (first last : Int) : Option (List α) :=
  if 0 ≤ first ∧ first ≤ last ∧ last ≤ l.length then some ((l.take last.toNat).drop first.toNat) else none

/-- `*i` -/
def at_ {α : Type} (l : List α) (i : Int) : Option α := if 0 ≤ i then l[i.toNat]? else none

namespace Grid

def create : Grid := ⟨false, []⟩

/-! ## Access

There is no result where the code follows `begin()` of an empty vector.
-/

/-- `array_var` -/
def arrayVar (g : Grid) : Option (Option Variable) :=
  if g.isArraySet then g.vars.head?.map some else some none

/-- `get_array` -/
def getArray (g : Grid) : Option (Option Variable) := g.arrayVar.map (·.filter Variable.isArray)

def mapBegin (g : Grid) : Int := if g.isArraySet then 1 else 0

def mapEnd (g : Grid) : Int := g.vars.length

def mapRbegin (_ : Grid) : Int := 0

def mapRend (g : Grid) : Int := if g.isArraySet then g.vars.length - 1 else g.vars.length

def getMapIter (g : Grid) (i : Int) : Int := if g.isArraySet then g.mapBegin + 1 + i else g.mapBegin + i

def mapsForward (g : Grid) : Option (List Variable) := between g.vars g.mapBegin g.mapEnd

def mapsBackward (g : Grid) : Option (List Variable) := between g.vars.reverse g.mapRbegin g.mapRend

/-- `components`, which follows `get_array` under a constraint. -/
def components (g : Grid) (constrained : Bool) : Option Nat :=
  if constrained then
    match g.getArray, g.mapsForward with
    | some (some a), some maps => some ((if a.sendP then 1 else 0) + maps.countP Variable.sendP)
    | _, _ => none
  else some g.vars.length

/-! ## Change -/

def setArray (g : Grid) : Option ArrayPtr → Outcome Grid
  | none => .threw g "Grid::set_array(): Cannot set to null!"
  | some p =>
      match g.getArray with
      | none => .undefined
      | some a =>
          if a = some p.1 then .done g
          else if g.vars = [] then .done ⟨true, [p.1]⟩
          else if g.isArraySet = false then .done ⟨true, p.1 :: g.vars⟩
          else .done ⟨true, g.vars.set 0 p.1⟩

def pushBack (g : Grid) (v : Variable) : Grid := { g with vars := g.vars ++ [v] }

/-- `add_var` and `add_var_nocopy`, which keep a copy at `new` or the variable itself. -/
def add (g : Grid) (bt : Option Variable) (part : Part) (new : Option Nat) : Outcome Grid :=
  match bt with
  | none => .threw g "Passing NULL pointer as variable to be added."
  | some bt =>
      if part = .array ∧ g.isArraySet = true then
        .threw g "Error: Grid::add_var called with part==Array, but the array was already set!"
      else if isArray : bt.isArray = true then
        let p := ArrayPtr.kept ⟨bt, isArray⟩ new
        match part with
        | .array => g.setArray (some p)
        | .maps => .done (g.pushBack p.1)
        | .nil => if g.isArraySet = false then g.setArray (some p) else .done (g.pushBack p.1)
      else .threw g "Grid::add_var(): object is not an Array!"

def addVar (g : Grid) (bt : Option Variable) (part : Part) (new : Nat) : Outcome Grid := g.add bt part (some new)

def addVarNocopy (g : Grid) (bt : Option Variable) (part : Part) : Outcome Grid := g.add bt part none

def addMap (g : Grid) (p : Option ArrayPtr) (new : Option Nat) : Outcome Grid :=
  match p with
  | none => .threw g "Grid::add_map(): cannot have p_new_map null!"
  | some p => .done (g.pushBack (p.kept new).1)

/-- There is no test for a null map. -/
def prependMap (g : Grid) (p : Option ArrayPtr) (new : Option Nat) : Outcome Grid :=
  match p with
  | none => .undefined
  | some p =>
      if g.mapBegin ≤ g.mapEnd then .done { g with vars := g.vars.insertIdx g.mapBegin.toNat (p.kept new).1 }
      else .undefined

/-- `Constructor::del_var` of a name. -/
def delVar (g : Grid) (n : String) : Outcome Grid := .done { g with vars := g.vars.eraseP (·.name == n) }

/-- `Constructor::del_var` of an iterator. -/
def delVarAt (g : Grid) (i : Nat) : Outcome Grid :=
  if i < g.vars.length then .done { g with vars := g.vars.eraseIdx i } else .undefined

/-- The copy constructor. The copies are made in order, each at an address of its own. -/
def copy (g : Grid) (new : Nat → Nat) : Grid :=
  { g with vars := g.vars.mapIdx fun i v => v.duplicate (new i) }

/-- `operator=` -/
def assign (_this rhs : Grid) (new : Nat → Nat) : Grid := rhs.copy new

end Grid

/-- The calls that change one Grid. -/
inductive Op where
  | setArray (p : Option ArrayPtr)
  | addVar (bt : Option Variable) (part : Part) (new : Nat)
  | addVarNocopy (bt : Option Variable) (part : Part)
  | addMap (p : Option ArrayPtr) (new : Option Nat)
  | prependMap (p : Option ArrayPtr) (new : Option Nat)
  | delVar (n : String)
  | delVarAt (i : Nat)

def Op.apply (op : Op) (g : Grid) : Outcome Grid :=
  match op with
  | setArray p => g.setArray p
  | addVar bt part new => g.addVar bt part new
  | addVarNocopy bt part => g.addVarNocopy bt part
  | addMap p new => g.addMap p new
  | prependMap p new => g.prependMap p new
  | delVar n => g.delVar n
  | delVarAt i => g.delVarAt i

/-! ## What is meant -/

/-- A Grid as an array and maps. -/
structure Parts where
  array : Option Variable
  maps : List Variable

namespace Parts

/-- The variables in order. -/
def vars (p : Parts) : List Variable := p.array.toList ++ p.maps

/-- A call that is refused leaves the parts as they are. -/
def add (p : Parts) (bt : Option Variable) (part : Part) (new : Option Nat) : Parts :=
  match bt with
  | none => p
  | some bt =>
      if isArray : bt.isArray = true then
        let v := (ArrayPtr.kept ⟨bt, isArray⟩ new).1
        match part, p.array with
        | .array, some _ => p
        | .array, none | .nil, none => { p with array := some v }
        | .maps, _ | .nil, some _ => { p with maps := p.maps ++ [v] }
      else p

def apply (p : Parts) : Op → Parts
  | .setArray none | .addMap none _ | .prependMap none _ => p
  | .setArray (some q) => { p with array := some q.1 }
  | .addVar bt part new => p.add bt part (some new)
  | .addVarNocopy bt part => p.add bt part none
  | .addMap (some q) new => { p with maps := p.maps ++ [(q.kept new).1] }
  | .prependMap (some q) new => { p with maps := (q.kept new).1 :: p.maps }
  | .delVar n =>
      match p.array with
      | none => { p with maps := p.maps.eraseP (·.name == n) }
      | some a => if a.name = n then { p with array := none } else { p with maps := p.maps.eraseP (·.name == n) }
  | .delVarAt i =>
      match p.array, i with
      | none, i => { p with maps := p.maps.eraseIdx i }
      | some _, 0 => { p with array := none }
      | some _, i + 1 => { p with maps := p.maps.eraseIdx i }

def copy (p : Parts) (new : Nat → Nat) : Parts where
  array := p.array.map (·.duplicate (new 0))
  maps := p.maps.mapIdx fun i v => v.duplicate (new (p.array.toList.length + i))

end Parts

/-- The call deletes no array. -/
def Op.Spares (p : Parts) : Op → Prop
  | .delVar n => ∀ a ∈ p.array, a.name ≠ n
  | .delVarAt i => p.array.isSome = true → i ≠ 0
  | _ => True

/-- A Grid and what it is meant to be, after calls that meet a condition. -/
inductive Reached (condition : Parts → Op → Prop) : Grid → Parts → Prop where
  | made : Reached condition .create ⟨none, []⟩
  | call {g g' p} (before : Reached condition g p) (op : Op) (ok : condition p op)
      (returned : (op.apply g).state = some g') : Reached condition g' (p.apply op)
  | copied {g p} (before : Reached condition g p) (new : Nat → Nat) :
      Reached condition (g.copy new) (p.copy new)
  | assigned {g h p q} (before : Reached condition g p) (other : Reached condition h q) (new : Nat → Nat) :
      Reached condition (g.assign h new) (q.copy new)

/-- Every access finds the parts. -/
structure Agrees (g : Grid) (p : Parts) : Prop where
  vars : g.vars = p.vars
  arrayVar : g.arrayVar = some p.array
  getArray : g.getArray = some p.array
  forward : g.mapsForward = some p.maps
  backward : g.mapsBackward = some p.maps.reverse
  each : ∀ i < p.maps.length, at_ g.vars (g.getMapIter i) = p.maps[i]?
  components : g.components false = some p.vars.length

end Libdap.Dap2.Grids
