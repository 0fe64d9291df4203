import Libdap.Dap2.AttrTable
import Libdap.Foundation.Copying

/-! # What holds of attribute tables

The names in a table differ, a container knows the table that holds it, an attribute has
values, and what an alias stands for is in the same tree. Operations that meet a
condition keep all of this.
-/

namespace Libdap.Dap2

open Dap4 (Name)

namespace Entry

theorem holdsIn_append (es es' : List Entry) : holdsIn (es ++ es') = holdsIn es ++ holdsIn es' := by
  induction es with
  | nil => rfl
  | cons e es ih => simp only [List.cons_append, holdsIn, ih, List.append_assoc]

theorem aliasedIn_append (es es' : List Entry) : aliasedIn (es ++ es') = aliasedIn es ++ aliasedIn es' := by
  induction es with
  | nil => rfl
  | cons e es ih => simp only [List.cons_append, aliasedIn, ih, List.append_assoc]

theorem holdsIn_single (e : Entry) : holdsIn [e] = e.holds := by simp only [holdsIn, List.append_nil]

theorem aliasedIn_single (e : Entry) : aliasedIn [e] = e.aliased := by simp only [aliasedIn, List.append_nil]

mutual

/-- An entry of a table with this address, with these vectors of values. -/
def Good (vectors : List (List Name)) (holder : Nat) : Entry → Prop
  | .attr _ type _ values => type ≠ .container ∧ ∃ v ∈ values, ∃ l ∈ vectors[v]?, l ≠ []
  | .containerAlias .. => True
  | .container _ addr _ d_parent attr_map =>
    d_parent = some holder ∧ (attr_map.map name).Nodup ∧ GoodIn vectors addr attr_map

def GoodIn (vectors : List (List Name)) (holder : Nat) : List Entry → Prop
  | [] => True
  | e :: es => Good vectors holder e ∧ GoodIn vectors holder es

end

theorem goodIn_iff {vectors : List (List Name)} {holder : Nat} {es : List Entry} :
    GoodIn vectors holder es ↔ ∀ e ∈ es, Good vectors holder e := by
  induction es with
  | nil => simp only [GoodIn, List.not_mem_nil, false_imp_iff, implies_true]
  | cons e es ih => rw [GoodIn, ih, List.forall_mem_cons]

/-- Vectors that have values still do. -/
def Filled (vectors vectors' : List (List Name)) : Prop :=
  ∀ (v : Nat) (l : List Name), l ∈ vectors[v]? → l ≠ [] → ∃ l' ∈ vectors'[v]?, l' ≠ []

mutual

theorem Good.filled {vectors vectors' : List (List Name)} (filled : Filled vectors vectors') {holder : Nat} :
    {e : Entry} → Good vectors holder e → Good vectors' holder e
  | .attr _ type _ values => fun good => by
      rw [Good] at good ⊢
      obtain ⟨plain, v, mem, l, at_, some_⟩ := good
      exact ⟨plain, v, mem, filled v l at_ some_⟩
  | .containerAlias .. => fun good => by
      rw [Good] at good ⊢
      exact good
  | .container _ addr _ d_parent attr_map => fun good => by
      rw [Good] at good ⊢
      exact ⟨good.1, good.2.1, GoodIn.filled filled good.2.2⟩

theorem GoodIn.filled {vectors vectors' : List (List Name)} (filled : Filled vectors vectors') {holder : Nat} :
    {es : List Entry} → GoodIn vectors holder es → GoodIn vectors' holder es
  | [] => fun good => by
      rw [GoodIn] at good ⊢
      exact good
  | e :: es => fun good => by
      rw [GoodIn] at good ⊢
      exact ⟨Good.filled filled good.1, GoodIn.filled filled good.2⟩

end

section

variable {k : Nat} {f : Node → Node}

theorem name_modify (e : Entry) : (e.modify k f).name = e.name := by
  cases e with
  | attr | containerAlias => rw [modify]
  | container => rw [modify]; split <;> rfl

theorem names_modifyIn (es : List Entry) : (modifyIn k f es).map name = es.map name := by
  induction es with
  | nil => rfl
  | cons e es ih => rw [modifyIn, List.map_cons, List.map_cons, name_modify, ih]

mutual

/-- Tables without one that has the address stay as they are. -/
theorem modify_of_not_inside (e : Entry) (none_ : e.inside k = []) : e.modify k f = e := by
  cases e with
  | attr | containerAlias => rw [modify]
  | container name addr d_name d_parent attr_map =>
      rw [inside] at none_
      rw [modify]
      split at none_
      · cases none_
      · rename_i other
        rw [if_neg other, modifyIn_of_not_inside attr_map none_]

theorem modifyIn_of_not_inside (es : List Entry) (none_ : insideIn k es = []) : modifyIn k f es = es := by
  cases es with
  | nil => rw [modifyIn]
  | cons e es =>
      rw [insideIn, List.append_eq_nil_iff] at none_
      rw [modifyIn, modify_of_not_inside e none_.1, modifyIn_of_not_inside es none_.2]

end

mutual

theorem table_mem_of_inside (e : Entry) {n : Node} (mem : n ∈ e.inside k) : .table k ∈ e.holds := by
  cases e with
  | attr | containerAlias =>
      rw [inside] at mem
      cases mem
  | container name addr d_name d_parent attr_map =>
      rw [inside] at mem
      rw [holds]
      split at mem
      · rename_i same
        exact List.mem_cons.mpr (.inl (by rw [same]))
      · exact List.mem_cons_of_mem _ (table_mem_of_insideIn attr_map mem)

theorem table_mem_of_insideIn (es : List Entry) {n : Node} (mem : n ∈ insideIn k es) : .table k ∈ holdsIn es := by
  cases es with
  | nil =>
      rw [insideIn] at mem
      cases mem
  | cons e es =>
      rw [insideIn, List.mem_append] at mem
      rw [holdsIn, List.mem_append]
      exact mem.imp (table_mem_of_inside e) (table_mem_of_insideIn es)

end

mutual

/-- What belongs to a table after a change: all that did, but for what the change takes away. -/
theorem holds_modify (e : Entry) {r : Ref} (mem : r ∈ e.holds) :
    r ∈ (e.modify k f).holds ∨ ∃ n ∈ e.inside k, r ∈ holdsIn n.attr_map ∧ r ∉ holdsIn (f n).attr_map := by
  cases e with
  | attr | containerAlias =>
      rw [modify]
      exact .inl mem
  | container name addr d_name d_parent attr_map =>
      rw [holds, List.mem_cons] at mem
      rw [modify, inside]
      split
      · rw [holds, List.mem_cons]
        rcases mem with rfl | mem
        · exact .inl (.inl rfl)
        · by_cases stays : r ∈ holdsIn (f ⟨d_name, d_parent, attr_map⟩).attr_map
          · exact .inl (.inr stays)
          · exact .inr ⟨_, List.mem_singleton.mpr rfl, mem, stays⟩
      · rw [holds, List.mem_cons]
        rcases mem with rfl | mem
        · exact .inl (.inl rfl)
        · exact (holds_modifyIn attr_map mem).imp_left .inr

theorem holds_modifyIn (es : List Entry) {r : Ref} (mem : r ∈ holdsIn es) :
    r ∈ holdsIn (modifyIn k f es) ∨ ∃ n ∈ insideIn k es, r ∈ holdsIn n.attr_map ∧ r ∉ holdsIn (f n).attr_map := by
  cases es with
  | nil => exact absurd mem List.not_mem_nil
  | cons e es =>
      rw [holdsIn, List.mem_append] at mem
      rw [modifyIn, holdsIn, insideIn, List.mem_append]
      rcases mem with mem | mem
      · rcases holds_modify e mem with here | ⟨n, at_, lost⟩
        · exact .inl (.inl here)
        · exact .inr ⟨n, List.mem_append_left _ at_, lost⟩
      · rcases holds_modifyIn es mem with here | ⟨n, at_, lost⟩
        · exact .inl (.inr here)
        · exact .inr ⟨n, List.mem_append_right _ at_, lost⟩

end

mutual

/-- What a changed table has is in the changed tree. -/
theorem holds_inside (e : Entry) {n : Node} (at_ : n ∈ e.inside k) {r : Ref} (mem : r ∈ holdsIn (f n).attr_map) :
    r ∈ (e.modify k f).holds := by
  cases e with
  | attr | containerAlias =>
      rw [inside] at at_
      cases at_
  | container name addr d_name d_parent attr_map =>
      rw [inside] at at_
      rw [modify]
      split at at_
      · rename_i same
        rw [if_pos same]
        obtain rfl := List.mem_singleton.mp at_
        exact List.mem_cons_of_mem _ mem
      · rename_i other
        rw [if_neg other]
        exact List.mem_cons_of_mem _ (holdsIn_inside attr_map at_ mem)

theorem holdsIn_inside (es : List Entry) {n : Node} (at_ : n ∈ insideIn k es) {r : Ref}
    (mem : r ∈ holdsIn (f n).attr_map) : r ∈ holdsIn (modifyIn k f es) := by
  cases es with
  | nil =>
      rw [insideIn] at at_
      cases at_
  | cons e es =>
      rw [insideIn, List.mem_append] at at_
      rw [modifyIn, holdsIn, List.mem_append]
      exact at_.imp (fun at_ => holds_inside e at_ mem) (fun at_ => holdsIn_inside es at_ mem)

end

mutual

/-- The aliases after a change: those that were there, and those of the changed table. -/
theorem aliased_modify (e : Entry) {r : Ref} (mem : r ∈ (e.modify k f).aliased) :
    r ∈ e.aliased ∨ ∃ n ∈ e.inside k, r ∈ aliasedIn (f n).attr_map := by
  cases e with
  | attr | containerAlias =>
      rw [modify] at mem
      exact .inl mem
  | container name addr d_name d_parent attr_map =>
      rw [modify] at mem
      rw [inside]
      split at mem
      · rename_i same
        rw [if_pos same]
        exact .inr ⟨_, List.mem_singleton.mpr rfl, mem⟩
      · rename_i other
        rw [if_neg other]
        exact aliased_modifyIn attr_map mem

theorem aliased_modifyIn (es : List Entry) {r : Ref} (mem : r ∈ aliasedIn (modifyIn k f es)) :
    r ∈ aliasedIn es ∨ ∃ n ∈ insideIn k es, r ∈ aliasedIn (f n).attr_map := by
  cases es with
  | nil => exact absurd mem List.not_mem_nil
  | cons e es =>
      rw [modifyIn, aliasedIn, List.mem_append] at mem
      rw [aliasedIn, insideIn, List.mem_append]
      rcases mem with mem | mem
      · rcases aliased_modify e mem with here | ⟨n, at_, new⟩
        · exact .inl (.inl here)
        · exact .inr ⟨n, List.mem_append_left _ at_, new⟩
      · rcases aliased_modifyIn es mem with here | ⟨n, at_, new⟩
        · exact .inl (.inr here)
        · exact .inr ⟨n, List.mem_append_right _ at_, new⟩

end

mutual

theorem aliased_inside (e : Entry) {n : Node} (at_ : n ∈ e.inside k) {r : Ref} (mem : r ∈ aliasedIn n.attr_map) :
    r ∈ e.aliased := by
  cases e with
  | attr | containerAlias =>
      rw [inside] at at_
      cases at_
  | container name addr d_name d_parent attr_map =>
      rw [inside] at at_
      rw [aliased]
      split at at_
      · obtain rfl := List.mem_singleton.mp at_
        exact mem
      · exact aliasedIn_inside attr_map at_ mem

theorem aliasedIn_inside (es : List Entry) {n : Node} (at_ : n ∈ insideIn k es) {r : Ref}
    (mem : r ∈ aliasedIn n.attr_map) : r ∈ aliasedIn es := by
  cases es with
  | nil =>
      rw [insideIn] at at_
      cases at_
  | cons e es =>
      rw [insideIn, List.mem_append] at at_
      rw [aliasedIn, List.mem_append]
      exact at_.imp (fun at_ => aliased_inside e at_ mem) (fun at_ => aliasedIn_inside es at_ mem)

end

/-- A change that keeps one table right keeps the tree right. -/
def Keeps (vectors vectors' : List (List Name)) (k : Nat) (f : Node → Node) (n : Node) : Prop :=
  (n.attr_map.map name).Nodup → GoodIn vectors k n.attr_map →
    ((f n).attr_map.map name).Nodup ∧ GoodIn vectors' k (f n).attr_map

mutual

theorem good_modify {vectors vectors' : List (List Name)} (filled : Filled vectors vectors') {holder : Nat} (e : Entry)
    (good : Good vectors holder e)
    (keeps : ∀ n ∈ e.inside k, (f n).d_parent = n.d_parent ∧ Keeps vectors vectors' k f n) :
    Good vectors' holder (e.modify k f) := by
  cases e with
  | attr | containerAlias =>
      rw [modify]
      exact good.filled filled
  | container name addr d_name d_parent attr_map =>
      rw [Good] at good
      obtain ⟨parent, names, below⟩ := good
      rw [inside] at keeps
      rw [modify]
      split
      · rename_i same
        rw [if_pos same] at keeps
        obtain ⟨same_parent, keep⟩ := keeps _ (List.mem_singleton.mpr rfl)
        subst same
        rw [Good]
        exact ⟨same_parent.trans parent, keep names below⟩
      · rename_i other
        rw [if_neg other] at keeps
        rw [Good, names_modifyIn]
        exact ⟨parent, names, good_modifyIn filled attr_map below keeps⟩

theorem good_modifyIn {vectors vectors' : List (List Name)} (filled : Filled vectors vectors') {holder : Nat}
    (es : List Entry) (good : GoodIn vectors holder es)
    (keeps : ∀ n ∈ insideIn k es, (f n).d_parent = n.d_parent ∧ Keeps vectors vectors' k f n) :
    GoodIn vectors' holder (modifyIn k f es) := by
  cases es with
  | nil =>
      rw [modifyIn, GoodIn]
      trivial
  | cons e es =>
      rw [GoodIn] at good
      rw [insideIn, List.forall_mem_append] at keeps
      rw [modifyIn, GoodIn]
      exact ⟨good_modify filled e good.1 keeps.1, good_modifyIn filled es good.2 keeps.2⟩

end

end

end Entry

open Entry

namespace AttrTable

/-- What holds of a tree of tables. -/
structure WellFormed (vectors : List (List Name)) (t : AttrTable) : Prop where
  names : (t.attr_map.map Entry.name).Nodup
  entries : GoodIn vectors t.addr t.attr_map
  present : ∀ r ∈ t.aliased, r ∈ t.holds

theorem WellFormed.filled {vectors vectors' : List (List Name)} {t : AttrTable} (good : t.WellFormed vectors)
    (filled : Filled vectors vectors') : t.WellFormed vectors' where
  names := good.names
  entries := good.entries.filled filled
  present := good.present

section

variable {k : Nat} {f : Node → Node} {t : AttrTable} {vectors vectors' : List (List Name)}

theorem modify_of_not_inside (none_ : t.inside k = []) : t.modify k f = t := by
  unfold inside at none_
  unfold modify
  split at none_
  · cases none_
  · rename_i other
    rw [if_neg other, modifyIn_of_not_inside _ none_]

theorem table_mem_of_inside {n : Node} (mem : n ∈ t.inside k) : .table k ∈ t.holds := by
  unfold inside at mem
  unfold holds
  split at mem
  · rename_i same
    exact List.mem_cons.mpr (.inl (by rw [same]))
  · exact List.mem_cons_of_mem _ (table_mem_of_insideIn _ mem)

theorem holds_modify {r : Ref} (mem : r ∈ t.holds) :
    r ∈ (t.modify k f).holds ∨ ∃ n ∈ t.inside k, r ∈ holdsIn n.attr_map ∧ r ∉ holdsIn (f n).attr_map := by
  unfold holds at mem ⊢
  unfold modify inside
  rw [List.mem_cons] at mem
  split
  · rw [List.mem_cons]
    rcases mem with rfl | mem
    · exact .inl (.inl rfl)
    · by_cases stays : r ∈ holdsIn (f t.toNode).attr_map
      · exact .inl (.inr stays)
      · exact .inr ⟨_, List.mem_singleton.mpr rfl, mem, stays⟩
  · rw [List.mem_cons]
    rcases mem with rfl | mem
    · exact .inl (.inl rfl)
    · exact (holds_modifyIn _ mem).imp_left .inr

theorem holds_inside {n : Node} (at_ : n ∈ t.inside k) {r : Ref} (mem : r ∈ holdsIn (f n).attr_map) :
    r ∈ (t.modify k f).holds := by
  unfold inside at at_
  unfold modify holds
  split at at_
  · rename_i same
    rw [if_pos same]
    obtain rfl := List.mem_singleton.mp at_
    exact List.mem_cons_of_mem _ mem
  · rename_i other
    rw [if_neg other]
    exact List.mem_cons_of_mem _ (holdsIn_inside _ at_ mem)

theorem aliased_modify {r : Ref} (mem : r ∈ (t.modify k f).aliased) :
    r ∈ t.aliased ∨ ∃ n ∈ t.inside k, r ∈ aliasedIn (f n).attr_map := by
  unfold modify aliased at mem
  unfold inside aliased
  split at mem
  · rename_i same
    rw [if_pos same]
    exact .inr ⟨_, List.mem_singleton.mpr rfl, mem⟩
  · rename_i other
    rw [if_neg other]
    exact aliased_modifyIn _ mem

theorem aliased_inside {n : Node} (at_ : n ∈ t.inside k) {r : Ref} (mem : r ∈ aliasedIn n.attr_map) :
    r ∈ t.aliased := by
  unfold inside at at_
  unfold aliased
  split at at_
  · obtain rfl := List.mem_singleton.mp at_
    exact mem
  · exact aliasedIn_inside _ at_ mem

/-- A change of a table keeps its tree right when it keeps the table right, when it takes nothing away that
    an alias stands for, and when new aliases stand for what is there. -/
theorem WellFormed.modify (good : t.WellFormed vectors) (filled : Filled vectors vectors')
    (keeps : ∀ n ∈ t.inside k, (f n).d_parent = n.d_parent ∧ Keeps vectors vectors' k f n)
    (stays : ∀ r ∈ (t.modify k f).aliased, ∀ n ∈ t.inside k, r ∈ holdsIn n.attr_map → r ∈ holdsIn (f n).attr_map)
    (new : ∀ n ∈ t.inside k, ∀ r ∈ aliasedIn (f n).attr_map,
      r ∈ aliasedIn n.attr_map ∨ r ∈ t.holds ∨ r ∈ holdsIn (f n).attr_map) : (t.modify k f).WellFormed vectors' := by
  have present : ∀ r ∈ (t.modify k f).aliased, r ∈ (t.modify k f).holds := by
    intro r mem
    have old : r ∈ t.holds → r ∈ (t.modify k f).holds := by
      intro held
      rcases holds_modify (k := k) (f := f) held with there | ⟨n, at_, held, lost⟩
      · exact there
      · exact absurd (stays r mem n at_ held) lost
    rcases aliased_modify mem with before | ⟨n, at_, now⟩
    · exact old (good.present r before)
    · rcases new n at_ r now with before | held | held
      · exact old (good.present r (aliased_inside at_ before))
      · exact old held
      · exact holds_inside at_ held
  unfold AttrTable.modify inside at *
  split at keeps
  · rename_i same
    obtain ⟨names, entries⟩ := (keeps _ (List.mem_singleton.mpr rfl)).2 good.names (same ▸ good.entries)
    rw [if_pos same] at present ⊢
    exact ⟨names, by rw [same]; exact entries, present⟩
  · rename_i other
    rw [if_neg other] at present ⊢
    exact ⟨by rw [names_modifyIn]; exact good.names, good_modifyIn filled _ good.entries keeps, present⟩

/-- An entry with a new name at the end of a table. -/
theorem WellFormed.push (good : t.WellFormed vectors) (filled : Filled vectors vectors') {e : Entry}
    (unused : ∀ n ∈ t.inside k, e.name ∉ n.attr_map.map Entry.name)
    (entry : ∀ n ∈ t.inside k, Good vectors' k e) (present : .table k ∈ t.holds → ∀ r ∈ e.aliased, r ∈ t.holds ∨ r ∈ e.holds) :
    (t.modify k fun n => { n with attr_map := n.attr_map ++ [e] }).WellFormed vectors' := by
  apply good.modify filled
  · intro n at_
    refine ⟨rfl, fun names entries => ⟨?_, ?_⟩⟩
    · rw [List.map_append, List.map_singleton, List.nodup_append]
      refine ⟨names, List.nodup_singleton _, ?_⟩
      intro a mem b only same
      obtain rfl := List.mem_singleton.mp only
      exact unused n at_ (same ▸ mem)
    · rw [goodIn_iff, List.forall_mem_append, ← goodIn_iff, List.forall_mem_singleton]
      exact ⟨entries.filled filled, entry n at_⟩
  · intro r _ n _ held
    rw [holdsIn_append]
    exact List.mem_append_left _ held
  · intro n at_ r mem
    rw [aliasedIn_append, aliasedIn_single, List.mem_append] at mem
    rw [holdsIn_append, holdsIn_single, List.mem_append]
    rcases mem with mem | mem
    · exact .inl mem
    · rcases present (table_mem_of_inside at_) r mem with held | held
      · exact .inr (.inl held)
      · exact .inr (.inr (.inr held))

end

end AttrTable

/-! ## Addresses -/

namespace Entry

mutual

/-- The addresses of the tables in an entry. -/
def addrs : Entry → List Nat
  | .container _ addr _ _ attr_map => addr :: addrsIn attr_map
  | .attr .. | .containerAlias .. => []

def addrsIn : List Entry → List Nat
  | [] => []
  | e :: es => addrs e ++ addrsIn es

end

theorem addrsIn_append (es es' : List Entry) : addrsIn (es ++ es') = addrsIn es ++ addrsIn es' := by
  induction es with
  | nil => rfl
  | cons e es ih => simp only [List.cons_append, addrsIn, ih, List.append_assoc]

/-- How often an address is in these tables. -/
def countIn (x : Nat) (ns : List Node) : Nat := (ns.map fun n => (addrsIn n.attr_map).count x).sum

theorem countIn_append (x : Nat) (ns ns' : List Node) : countIn x (ns ++ ns') = countIn x ns + countIn x ns' := by
  rw [countIn, List.map_append, List.sum_append]
  rfl

section

variable {k : Nat} {f : Node → Node}

mutual

/-- A change of a table takes away the addresses that were in it, and brings those that are. -/
theorem count_modify (x : Nat) (e : Entry) :
    (e.modify k f).addrs.count x + countIn x (e.inside k) = e.addrs.count x + countIn x ((e.inside k).map f) := by
  cases e with
  | attr | containerAlias => rw [modify, inside]; rfl
  | container name addr d_name d_parent attr_map =>
      rw [modify, inside]
      split
      · simp only [addrs, List.count_cons, countIn, List.map_cons, List.map_nil, List.sum_cons, List.sum_nil]
        omega
      · have below := countIn_modify x attr_map
        simp only [addrs, List.count_cons]
        omega

theorem countIn_modify (x : Nat) (es : List Entry) :
    (addrsIn (modifyIn k f es)).count x + countIn x (insideIn k es) =
      (addrsIn es).count x + countIn x ((insideIn k es).map f) := by
  cases es with
  | nil => rw [modifyIn, insideIn]; rfl
  | cons e es =>
      have first := count_modify x e
      have rest := countIn_modify x es
      rw [modifyIn, insideIn, addrsIn, addrsIn, List.count_append, List.count_append, countIn_append, List.map_append,
        countIn_append]
      omega

end

mutual

theorem length_inside (e : Entry) : (e.inside k).length ≤ e.addrs.count k := by
  cases e with
  | attr | containerAlias => rw [inside]; exact Nat.zero_le _
  | container name addr d_name d_parent attr_map =>
      rw [inside, addrs]
      split
      · rename_i same
        rw [same, List.count_cons_self]
        exact Nat.succ_le_succ (Nat.zero_le _)
      · exact (length_insideIn attr_map).trans List.count_le_count_cons

theorem length_insideIn (es : List Entry) : (insideIn k es).length ≤ (addrsIn es).count k := by
  cases es with
  | nil => rw [insideIn]; exact Nat.zero_le _
  | cons e es =>
      rw [insideIn, addrsIn, List.length_append, List.count_append]
      exact Nat.add_le_add (length_inside e) (length_insideIn es)

end

end

end Entry

namespace AttrTable

def addrs (t : AttrTable) : List Nat := t.addr :: addrsIn t.attr_map

theorem count_modify (x k : Nat) (f : Node → Node) (t : AttrTable) :
    (t.modify k f).addrs.count x + countIn x (t.inside k) = t.addrs.count x + countIn x ((t.inside k).map f) := by
  unfold modify inside addrs
  split
  · simp only [List.count_cons, countIn, List.map_cons, List.map_nil, List.sum_cons, List.sum_nil]
    omega
  · have below := countIn_modify (k := k) (f := f) x t.attr_map
    simp only [List.count_cons]
    omega

theorem length_inside (k : Nat) (t : AttrTable) : (t.inside k).length ≤ t.addrs.count k := by
  unfold inside addrs
  split
  · rename_i same
    rw [same, List.count_cons_self]
    exact Nat.succ_le_succ (Nat.zero_le _)
  · exact (length_insideIn _).trans List.count_le_count_cons

end AttrTable

/-! ## Copies -/

namespace Entry

mutual

/-- All attributes have a type. -/
def Known : Entry → Prop
  | .attr _ type _ _ => type ≠ .unknown
  | .containerAlias .. => True
  | .container _ _ _ _ attr_map => KnownIn attr_map

def KnownIn : List Entry → Prop
  | [] => True
  | e :: es => Known e ∧ KnownIn es

end

theorem filled_of_longer {vectors vectors' : List (List Name)} (longer : vectors <+: vectors') :
    Filled vectors vectors' := fun _ l mem some_ => ⟨l, kept longer mem, some_⟩

mutual

/-- The copy of an entry without aliases. -/
theorem copy_good (parent : Nat) (e : Entry) {s s' : Store} {e' : Entry} {holder : Nat}
    (good : Good s.vectors holder e) (known : e.Known) (plain : e.aliased = [])
    (done : copy parent e s = some (e', s')) :
    s'.moved = s.moved ∧ s.vectors <+: s'.vectors ∧ e'.name = e.name ∧ e'.aliased = [] ∧
      Good s'.vectors parent e' := by
  cases e with
  | attr name type aliased_to values =>
      rw [Good] at good
      rw [Known] at known
      obtain ⟨table, v, mem, l, at_, some_⟩ := good
      obtain rfl := Option.mem_def.mp mem
      unfold copy at done
      split at done
      · exact absurd rfl known
      · cases done
      · simp [aliased] at plain
      · cases done
      · rename_i same
        obtain rfl := Option.some.inj same
        obtain ⟨l', at_', rest⟩ := Option.bind_eq_some_iff.mp done
        obtain ⟨rfl, rfl⟩ := Prod.mk.inj (Option.some.inj rest)
        obtain rfl := Option.some.inj (at_'.symm.trans at_)
        refine ⟨rfl, List.prefix_append _ _, rfl, rfl, ?_⟩
        rw [Good]
        exact ⟨table, _, rfl, l', List.getElem?_concat_length, some_⟩
  | containerAlias => simp [aliased] at plain
  | container name addr d_name d_parent attr_map =>
      rw [Good] at good
      rw [Known] at known
      rw [aliased] at plain
      rw [copy] at done
      obtain ⟨⟨es, t⟩, all, rest⟩ := Option.bind_eq_some_iff.mp done
      obtain ⟨rfl, rfl⟩ := Prod.mk.inj (Option.some.inj rest)
      obtain ⟨moved, vectors, names, plain', below⟩ := copyIn_good s.next attr_map
        (s := { s with next := s.next + 1 }) good.2.2 known plain all
      refine ⟨moved, vectors, rfl, plain', ?_⟩
      rw [Good, names]
      exact ⟨rfl, good.2.1, below⟩

theorem copyIn_good (parent : Nat) (es : List Entry) {s s' : Store} {es' : List Entry} {holder : Nat}
    (good : GoodIn s.vectors holder es) (known : KnownIn es) (plain : aliasedIn es = [])
    (done : copyIn parent es s = some (es', s')) :
    s'.moved = s.moved ∧ s.vectors <+: s'.vectors ∧ es'.map name = es.map name ∧ aliasedIn es' = [] ∧
      GoodIn s'.vectors parent es' := by
  cases es with
  | nil =>
      rw [copyIn] at done
      obtain ⟨rfl, rfl⟩ := Prod.mk.inj (Option.some.inj done)
      exact ⟨rfl, List.prefix_rfl, rfl, rfl, good⟩
  | cons e es =>
      rw [GoodIn] at good
      rw [KnownIn] at known
      rw [aliasedIn, List.append_eq_nil_iff] at plain
      rw [copyIn] at done
      obtain ⟨⟨e₁, s₁⟩, one, done⟩ := Option.bind_eq_some_iff.mp done
      obtain ⟨⟨es₁, s₂⟩, others, done⟩ := Option.bind_eq_some_iff.mp done
      obtain ⟨rfl, rfl⟩ := Prod.mk.inj (Option.some.inj done)
      obtain ⟨moved, vectors, named, plain₁, good₁⟩ := copy_good parent e good.1 known.1 plain.1 one
      obtain ⟨moved', vectors', names, plain₂, good₂⟩ := copyIn_good parent es
        (good.2.filled (filled_of_longer vectors)) known.2 plain.2 others
      refine ⟨moved'.trans moved, vectors.trans vectors', ?_, ?_, ?_⟩
      · rw [List.map_cons, List.map_cons, named, names]
      · rw [aliasedIn, plain₁, plain₂]
        rfl
      · rw [GoodIn]
        exact ⟨good₁.filled (filled_of_longer vectors'), good₂⟩

end

end Entry

namespace Attributes

/-- How often an address is that of a table. -/
def count (s : Attributes) (x : Nat) : Nat := (s.live.flatMap AttrTable.addrs).count x

/-- No two tables have the same address, and the next address is free. -/
def Unique (s : Attributes) : Prop := ∀ x, s.count x ≤ 1 ∧ (s.store.next ≤ x → s.count x = 0)

section

variable {s : Attributes} {k : Nat}

theorem length_inside (live : List AttrTable) :
    (live.flatMap (AttrTable.inside k)).length ≤ (live.flatMap AttrTable.addrs).count k := by
  induction live with
  | nil => exact le_rfl
  | cons t ts ih =>
      rw [List.flatMap_cons, List.flatMap_cons, List.length_append, List.count_append]
      exact Nat.add_le_add (t.length_inside k) ih

theorem inside_eq (unique : s.Unique) {n : Node} (at_ : s.table k = some n) :
    s.live.flatMap (AttrTable.inside k) = [n] := by
  have short := (length_inside (k := k) s.live).trans (unique k).1
  unfold table at at_
  generalize s.live.flatMap (AttrTable.inside k) = ns at at_ short
  match ns, at_, short with
  | [m], at_, _ => rw [Option.some.inj at_]

theorem eq_table (unique : s.Unique) {n : Node} (at_ : s.table k = some n) {t : AttrTable} (mem : t ∈ s.live)
    {m : Node} (inside : m ∈ t.inside k) : m = n := by
  have there : m ∈ s.live.flatMap (AttrTable.inside k) := List.mem_flatMap.mpr ⟨t, mem, inside⟩
  rw [inside_eq unique at_] at there
  exact List.mem_singleton.mp there

theorem table_mem {n : Node} (at_ : s.table k = some n) : ∃ t ∈ s.live, n ∈ t.inside k :=
  List.mem_flatMap.mp (List.mem_of_mem_head? at_)

theorem count_live (x : Nat) (f : Node → Node) (live : List AttrTable) :
    ((live.map (AttrTable.modify k f)).flatMap AttrTable.addrs).count x +
        countIn x (live.flatMap (AttrTable.inside k)) =
      (live.flatMap AttrTable.addrs).count x + countIn x ((live.flatMap (AttrTable.inside k)).map f) := by
  induction live with
  | nil => rfl
  | cons t ts ih =>
      have first := t.count_modify x k f
      simp only [List.map_cons, List.flatMap_cons, List.count_append, countIn_append, List.map_append]
      omega

/-- The addresses after a change of one table. -/
theorem count_onTable (unique : s.Unique) {n : Node} (at_ : s.table k = some n) (f : Node → Node) (x : Nat) :
    (s.onTable k f).count x + (addrsIn n.attr_map).count x = s.count x + (addrsIn (f n).attr_map).count x := by
  have all := count_live (k := k) x f s.live
  rw [inside_eq unique at_] at all
  simpa [countIn, count, onTable] using all

end

/-- What holds of all tables. -/
structure Inv (s : Attributes) : Prop where
  good : ∀ t ∈ s.live, t.WellFormed s.store.vectors
  unique : s.Unique
  settled : s.store.moved = []

/-- A table has an entry of this name. -/
def Names (s : Attributes) (k : Nat) (lname : Name) : Prop := ∃ n ∈ s.table k, lname ∈ n.attr_map.map Entry.name

/-- What has an address is in the tree of this table. -/
def Beside (s : Attributes) (k : Nat) (r : Ref) : Prop := ∀ t ∈ s.live, .table k ∈ t.holds → r ∈ t.holds

/-- No alias that is still there after a change of a table stands for what the change takes away. -/
def Spares (s : Attributes) (k : Nat) (f : Node → Node) : Prop :=
  ∀ t ∈ s.live, ∀ r ∈ (t.modify k f).aliased, ∀ n ∈ t.inside k, r ∈ holdsIn n.attr_map → r ∈ holdsIn (f n).attr_map

/-- A table that can be copied without harm: it has no aliases, and its attributes have a type. -/
def Copyable (s : Attributes) (rhs : Nat) : Prop :=
  ∀ n ∈ s.table rhs, aliasedIn n.attr_map = [] ∧ KnownIn n.attr_map

/-- The entries of a table without the one with this name. -/
def without (lname : Name) (n : Node) : Node := { n with attr_map := n.attr_map.eraseP (·.name = lname) }

/-- When an operation does no harm. -/
def Ok (s : Attributes) : Op → Prop
  | .create => True
  | .append_attr k name type values =>
    s.Names k (remove_space_encoding name) ∨ (String_to_AttrType type ≠ .container ∧ values ≠ [])
  | .append_container k name | .append_container_at k _ name => ¬s.Names k (remove_space_encoding name)
  | .add_container_alias k _ src => s.Beside k (.table src)
  | .add_value_alias k das _ source =>
    ∀ fuel, ∀ e ∈ s.find_source fuel k das (remove_space_encoding source), ∃ r ∈ e.ref, s.Beside k r
  | .del_attr k name none => s.Spares k (without (remove_space_encoding name))
  | .del_attr k name (some _) =>
    ∀ n ∈ s.table k, ∀ e ∈ simple_find n.attr_map (remove_space_encoding name), ∀ v ∈ e.ref,
      ∀ v', v = .vector v' → 2 ≤ (s.store.vectors[v']?.getD []).length
  | .erase k => s.Spares k fun n => { n with d_name := [], attr_map := [] }
  | .copy rhs => s.Copyable rhs
  | .assign k rhs => k = rhs ∨ (s.Copyable rhs ∧ ∀ t ∈ s.live, .table k ∉ holdsIn t.attr_map)

section

variable {s s' : Attributes}

theorem Inv.start : Inv ⟨[], ⟨[], 0, []⟩⟩ := ⟨List.forall_mem_nil _, fun _ => ⟨Nat.zero_le _, fun _ => rfl⟩, rfl⟩

end

end Attributes

end Libdap.Dap2
