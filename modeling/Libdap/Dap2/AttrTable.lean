import Libdap.Dap4.Lookup
import Libdap.Foundation.Run

/-! # Attribute tables

A table holds attributes, containers and aliases. An alias has the address of what it
stands for, a vector of values or the table of a container. The flags of global
attributes are left out.
-/

namespace Libdap.Dap2

open Dap4 (Name)

inductive AttrType where
  | unknown | container | byte | int16 | uint16 | int32 | uint32 | float32 | float64 | string | url | other_xml
  deriving Repr, DecidableEq

def downcase (s : Name) : Name := s.map Char.toLower

def String_to_AttrType (s : Name) : AttrType :=
  let s2 := String.ofList (downcase s)
  if s2 = "container" then .container
  else if s2 = "byte" then .byte
  else if s2 = "int16" then .int16
  else if s2 = "uint16" then .uint16
  else if s2 = "int32" then .int32
  else if s2 = "uint32" then .uint32
  else if s2 = "float32" then .float32
  else if s2 = "float64" then .float64
  else if s2 = "string" then .string
  else if s2 = "url" then .url
  else if s2 = "otherxml" then .other_xml
  else .unknown

/-- Each `%20` becomes a space. None can come up where another has been replaced. -/
def remove_space_encoding : Name → Name
  | '%' :: '2' :: '0' :: cs => ' ' :: remove_space_encoding cs
  | c :: cs => c :: remove_space_encoding cs
  | [] => []

/-- An entry of a table. What an alias stands for is told by `aliased_to`; an attribute has the
    address of its values, and a container has its table. -/
inductive Entry where
  | attr (name : Name) (type : AttrType) (aliased_to : Option Name) (values : Option Nat)
  | containerAlias (name : Name) (aliased_to : Name) (attributes : Nat)
  | container (name : Name) (addr : Nat) (d_name : Name) (d_parent : Option Nat) (attr_map : List Entry)
  deriving Repr

/-- What a table consists of. -/
structure Node where
  d_name : Name
  d_parent : Option Nat
  attr_map : List Entry
  deriving Repr

/-- A table that is in no other. -/
structure AttrTable extends Node where
  addr : Nat
  deriving Repr

/-- What an entry can have the address of. -/
inductive Ref where
  | table (addr : Nat)
  | vector (addr : Nat)
  deriving Repr, DecidableEq

namespace Entry

def name : Entry → Name
  | attr name _ _ _ | containerAlias name _ _ | container name _ _ _ _ => name

def type : Entry → AttrType
  | attr _ type _ _ => type
  | containerAlias .. | container .. => .container

/-- The address of what the entry stands for. -/
def ref : Entry → Option Ref
  | attr _ type _ values => if type = .container then none else values.map .vector
  | containerAlias _ _ attributes => some (.table attributes)
  | container _ addr _ _ _ => some (.table addr)

mutual

/-- What belongs to an entry. -/
def holds : Entry → List Ref
  | .attr _ _ none values => (values.map Ref.vector).toList
  | .attr _ _ (some _) _ | .containerAlias .. => []
  | .container _ addr _ _ attr_map => .table addr :: holdsIn attr_map

def holdsIn : List Entry → List Ref
  | [] => []
  | e :: es => holds e ++ holdsIn es

end

mutual

/-- What the aliases in an entry stand for. -/
def aliased : Entry → List Ref
  | .attr _ _ none _ => []
  | .attr _ _ (some _) values => (values.map Ref.vector).toList
  | .containerAlias _ _ attributes => [.table attributes]
  | .container _ _ _ _ attr_map => aliasedIn attr_map

def aliasedIn : List Entry → List Ref
  | [] => []
  | e :: es => aliased e ++ aliasedIn es

end

section

variable (k : Nat)

mutual

/-- Change the table with an address. -/
def modify (f : Node → Node) : Entry → Entry
  | .container name addr d_name d_parent attr_map =>
    if addr = k then
      let n := f ⟨d_name, d_parent, attr_map⟩
      .container name addr n.d_name n.d_parent n.attr_map
    else .container name addr d_name d_parent (modifyIn f attr_map)
  | .attr name type aliased_to values => .attr name type aliased_to values
  | .containerAlias name aliased_to attributes => .containerAlias name aliased_to attributes

def modifyIn (f : Node → Node) : List Entry → List Entry
  | [] => []
  | e :: es => modify f e :: modifyIn f es

end

mutual

/-- The table with an address. -/
def inside : Entry → List Node
  | .container _ addr d_name d_parent attr_map =>
    if addr = k then [⟨d_name, d_parent, attr_map⟩] else insideIn attr_map
  | .attr .. | .containerAlias .. => []

def insideIn : List Entry → List Node
  | [] => []
  | e :: es => inside e ++ insideIn es

end

end

mutual

/-- Set parents of tables, each at its address. -/
def reparent (moved : List (Nat × Nat)) : Entry → Entry
  | .container name addr d_name d_parent attr_map =>
    .container name addr d_name ((moved.lookup addr).or d_parent) (reparentIn moved attr_map)
  | .attr name type aliased_to values => .attr name type aliased_to values
  | .containerAlias name aliased_to attributes => .containerAlias name aliased_to attributes

def reparentIn (moved : List (Nat × Nat)) : List Entry → List Entry
  | [] => []
  | e :: es => reparent moved e :: reparentIn moved es

end

end Entry

namespace AttrTable

def holds (t : AttrTable) : List Ref := .table t.addr :: Entry.holdsIn t.attr_map

def aliased (t : AttrTable) : List Ref := Entry.aliasedIn t.attr_map

def modify (k : Nat) (f : Node → Node) (t : AttrTable) : AttrTable :=
  if t.addr = k then ⟨f t.toNode, t.addr⟩ else { t with attr_map := Entry.modifyIn k f t.attr_map }

def inside (k : Nat) (t : AttrTable) : List Node :=
  if t.addr = k then [t.toNode] else Entry.insideIn k t.attr_map

def reparent (moved : List (Nat × Nat)) (t : AttrTable) : AttrTable :=
  { t with d_parent := (moved.lookup t.addr).or t.d_parent, attr_map := Entry.reparentIn moved t.attr_map }

end AttrTable

/-! ## Copies -/

/-- The vectors of values, the next address of a table, and the parents that copies set in tables that
    are not theirs, from the last to the first. -/
structure Store where
  vectors : List (List Name)
  next : Nat
  moved : List (Nat × Nat)
  deriving Repr, DecidableEq

namespace Store

def newVector (s : Store) (values : List Name) : Store := { s with vectors := s.vectors ++ [values] }

def move (s : Store) (addr parent : Nat) : Store := { s with moved := (addr, parent) :: s.moved }

end Store

namespace Entry

mutual

/-- The copy constructor and `clone` of an entry, and what `AttrTable::clone` does with it for a table
    that copies it. -/
def copy (parent : Nat) : Entry → Store → Option (Entry × Store)
  | .attr name type aliased_to values, s =>
    match type, aliased_to, values with
    | .unknown, _, _ => some (.attr name type aliased_to none, s)
    | .container, _, _ => none
    | _, some _, _ => some (.attr name type aliased_to values, s)
    | _, none, none => none
    | _, none, some at_ => do
      let values ← s.vectors[at_]?
      some (.attr name type aliased_to (some s.vectors.length), s.newVector values)
  | .containerAlias name aliased_to attributes, s => some (.containerAlias name aliased_to attributes, s.move attributes parent)
  | .container name _ d_name _ attr_map, s => do
    let (attr_map', s') ← copyIn s.next attr_map { s with next := s.next + 1 }
    some (.container name s.next d_name (some parent) attr_map', s')

/-- The loop of `AttrTable::clone`. -/
def copyIn (parent : Nat) : List Entry → Store → Option (List Entry × Store)
  | [], s => some ([], s)
  | e :: es, s => do
    let (e', s) ← copy parent e s
    let (es', s) ← copyIn parent es s
    some (e' :: es', s)

end

end Entry

/-- `AttrTable(const AttrTable &)`. -/
def AttrTable.copy (d_name : Name) (attr_map : List Entry) (s : Store) : Option (AttrTable × Store) := do
  let (attr_map', s') ← Entry.copyIn s.next attr_map { s with next := s.next + 1 }
  some (⟨⟨d_name, none, attr_map'⟩, s.next⟩, s')

/-! ## Lookups -/

/-- All tables there are, and the vectors. -/
structure Attributes where
  live : List AttrTable
  store : Store
  deriving Repr

namespace Attributes

/-- The table with an address. -/
def table (s : Attributes) (k : Nat) : Option Node := (s.live.flatMap (AttrTable.inside k)).head?

def simple_find (es : List Entry) (target : Name) : Option Entry := es.find? (·.name = target)

/-- `simple_find_container`, with the table or none. -/
def simple_find_container (s : Attributes) (k : Nat) (target : Name) : Option (Option Nat) := do
  let n ← s.table k
  if n.d_name = target then return some k
  match n.attr_map.find? fun e => e.type = .container ∧ e.name = target with
  | some (.container _ addr _ _ _) => return some addr
  | some (.containerAlias _ _ addr) => return some addr
  | _ => return none

/-- `find_container`. -/
def find_container (s : Attributes) : Nat → Nat → Name → Option (Option Nat)
  | 0, _, _ => none
  | fuel + 1, k, target =>
    match splitFirst '.' target with
    | some (container, field) => do
      match ← s.simple_find_container k container with
      | some at_ => find_container s fuel at_ field
      | none => return none
    | none => s.simple_find_container k target

/-- `recurrsive_find`, with what is found or none. It follows aliases of containers, and does not
    come to an end when one leads back. -/
def recurrsive_find (s : Attributes) (target : Name) : Nat → Nat → Option (Option Entry)
  | 0, _ => none
  | fuel + 1, k => do loop fuel (← s.table k).attr_map
where
  loop : Nat → List Entry → Option (Option Entry)
  | 0, _ => none
  | _ + 1, [] => some none
  | fuel + 1, e :: es =>
    if e.name = target then some (some e)
    else
      match e with
      | .container _ addr _ _ _ | .containerAlias _ _ addr => do
        match ← recurrsive_find s target fuel addr with
        | some found => return some found
        | none => loop fuel es
      | .attr _ .container _ _ => none
      | .attr .. => loop fuel es

/-- `find`. The part behind the last dot is looked for in the container that the part in front of it
    names. -/
def find (s : Attributes) (fuel k : Nat) (target : Name) : Option (Option Entry) :=
  match splitFirst '.' target.reverse with
  | some (field, container) => do
    match ← s.find_container fuel k container.reverse with
    | some at_ => return simple_find (← s.table at_).attr_map field.reverse
    | none => return none
  | none => s.recurrsive_find target fuel k

/-! ## Operations -/

def onTable (s : Attributes) (k : Nat) (f : Node → Node) : Attributes :=
  { s with live := s.live.map (AttrTable.modify k f) }

/-- Add an entry at the end of a table. -/
def push (s : Attributes) (k : Nat) (e : Entry) : Attributes :=
  s.onTable k fun n => { n with attr_map := n.attr_map ++ [e] }

/-- The parents that copies have set. -/
def settle (s : Attributes) : Attributes where
  live := s.live.map (AttrTable.reparent s.store.moved)
  store := { s.store with moved := [] }

/-- `AttrTable()`. -/
def create (s : Attributes) : Attributes where
  live := s.live ++ [⟨⟨[], none, []⟩, s.store.next⟩]
  store := { s.store with next := s.store.next + 1 }

/-- The two `append_attr`, with one value or with several. -/
def append_attr (s : Attributes) (k : Nat) (name type : Name) (values : List Name) : Option Attributes := do
  let lname := remove_space_encoding name
  let n ← s.table k
  match simple_find n.attr_map lname with
  | some e =>
    if e.type ≠ String_to_AttrType type then none
    else if e.type = .container then none
    else
      match e.ref with
      | some (.vector v) =>
        some { s with store := { s.store with vectors := s.store.vectors.modify v (· ++ values) } }
      | _ => none
  | none =>
    let s' := s.push k (.attr lname (String_to_AttrType type) none (some s.store.vectors.length))
    some { s' with store := s.store.newVector values }

/-- `append_container` of a new table. -/
def append_container (s : Attributes) (k : Nat) (name : Name) : Option Attributes := do
  let lname := remove_space_encoding name
  let n ← s.table k
  -- the name as it is given is looked for
  match simple_find n.attr_map name with
  | some _ => none
  | none =>
    let s' := s.push k (.container lname s.store.next (remove_space_encoding lname) (some k) [])
    some { s' with store := { s.store with next := s.store.next + 1 } }

/-- `append_container` of a table that is in no other. -/
def append_container_at (s : Attributes) (k at_ : Nat) (name : Name) : Option Attributes := do
  let lname := remove_space_encoding name
  let t ← s.live.find? (·.addr = at_)
  let rest := { s with live := s.live.filter (·.addr ≠ at_) }
  let n ← rest.table k
  match simple_find n.attr_map name with
  | some _ => none
  | none => some (rest.push k (.container lname at_ (remove_space_encoding lname) (some k) t.attr_map))

def add_container_alias (s : Attributes) (k : Nat) (name : Name) (src : Nat) : Option Attributes := do
  let lname := remove_space_encoding name
  let n ← s.table k
  match simple_find n.attr_map lname with
  | some _ => none
  | none => some (s.push k (.containerAlias lname (← s.table src).d_name src))

/-- What `add_value_alias` finds: at the top level, or in the table. -/
def find_source (s : Attributes) (fuel k das : Nat) (lsource : Name) : Option Entry := do
  match ← s.find fuel das lsource with
  | some e => some e
  | none => (← s.find fuel k lsource)

/-- The entry of an alias. -/
def aliasOf (lname lsource : Name) (e : Entry) : Entry :=
  match e with
  | .attr _ type _ values => .attr lname type (some lsource) (if type = .container then none else values)
  | .containerAlias _ _ addr | .container _ addr _ _ _ => .containerAlias lname lsource addr

/-- `add_value_alias`, which `attr_alias` calls. -/
def add_value_alias (s : Attributes) (fuel k das : Nat) (name source : Name) : Option Attributes := do
  let lname := remove_space_encoding name
  let lsource := remove_space_encoding source
  let e ← s.find_source fuel k das lsource
  if e.type ≠ .container ∧ k = das then none
  else
    let n ← s.table k
    match simple_find n.attr_map lname with
    | some _ => none
    | none => some (s.push k (aliasOf lname lsource e))

/-- `del_attr`, with -1 for the whole attribute. -/
def del_attr (s : Attributes) (k : Nat) (name : Name) (i : Option Nat) : Option Attributes := do
  let lname := remove_space_encoding name
  let n ← s.table k
  match simple_find n.attr_map lname with
  | none => some s
  | some e =>
    match i with
    | none => some (s.onTable k fun n => { n with attr_map := n.attr_map.eraseP (·.name = lname) })
    | some i =>
      if e.type = .container then some s
      else
        match e.ref with
        | some (.vector v) =>
          if i < (s.store.vectors[v]?.getD []).length then
            some { s with store := { s.store with vectors := s.store.vectors.modify v (·.eraseIdx i) } }
          else none
        | _ => none

def erase (s : Attributes) (k : Nat) : Attributes := s.onTable k fun n => { n with d_name := [], attr_map := [] }

/-- The copy constructor, which makes a table that is in no other. -/
def copy (s : Attributes) (rhs : Nat) : Option Attributes := do
  let n ← s.table rhs
  let (t, store) ← AttrTable.copy n.d_name n.attr_map s.store
  some (settle ⟨s.live ++ [t], store⟩)

/-- `operator=`. A table that was in the one that is assigned to is gone when it is to be copied. -/
def assign (s : Attributes) (k rhs : Nat) : Option Attributes :=
  if k = rhs then some s
  else do
    let emptied := s.onTable k fun n => { n with attr_map := [] }
    let n ← emptied.table rhs
    let (attr_map, store) ← Entry.copyIn k n.attr_map s.store
    some (settle { (emptied.onTable k fun _ => ⟨n.d_name, none, attr_map⟩) with store })

/-- What can be done with tables. -/
inductive Op where
  | create
  | append_attr (k : Nat) (name type : Name) (values : List Name)
  | append_container (k : Nat) (name : Name)
  | append_container_at (k at_ : Nat) (name : Name)
  | add_container_alias (k : Nat) (name : Name) (src : Nat)
  | add_value_alias (k das : Nat) (name source : Name)
  | del_attr (k : Nat) (name : Name) (i : Option Nat)
  | erase (k : Nat)
  | copy (rhs : Nat)
  | assign (k rhs : Nat)
  deriving Repr, DecidableEq

/-- An operation that returns. The search for what an alias stands for takes the steps it needs. -/
inductive Step : Attributes → Op → Attributes → Prop where
  | create (s : Attributes) : Step s .create s.create
  | append_attr {s s' : Attributes} {k : Nat} {name type : Name} {values : List Name}
      (done : s.append_attr k name type values = some s') : Step s (.append_attr k name type values) s'
  | append_container {s s' : Attributes} {k : Nat} {name : Name} (done : s.append_container k name = some s') :
      Step s (.append_container k name) s'
  | append_container_at {s s' : Attributes} {k at_ : Nat} {name : Name}
      (done : s.append_container_at k at_ name = some s') : Step s (.append_container_at k at_ name) s'
  | add_container_alias {s s' : Attributes} {k src : Nat} {name : Name}
      (done : s.add_container_alias k name src = some s') : Step s (.add_container_alias k name src) s'
  | add_value_alias {s s' : Attributes} {fuel k das : Nat} {name source : Name}
      (done : s.add_value_alias fuel k das name source = some s') : Step s (.add_value_alias k das name source) s'
  | del_attr {s s' : Attributes} {k : Nat} {name : Name} {i : Option Nat} (done : s.del_attr k name i = some s') :
      Step s (.del_attr k name i) s'
  | erase (s : Attributes) (k : Nat) : Step s (.erase k) (s.erase k)
  | copy {s s' : Attributes} {rhs : Nat} (done : s.copy rhs = some s') : Step s (.copy rhs) s'
  | assign {s s' : Attributes} {k rhs : Nat} (done : s.assign k rhs = some s') : Step s (.assign k rhs) s'

end Attributes

end Libdap.Dap2
