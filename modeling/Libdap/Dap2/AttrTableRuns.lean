import Libdap.Dap2.AttrTableInvariant

/-! # Runs of operations on attribute tables -/

namespace Libdap.Dap2.Attributes

open Dap4 (Name)
open Entry

variable {s s' : Attributes}

/-! ## A change of one table -/

theorem Inv.onTable (inv : s.Inv) {k : Nat} {n : Node} (at_ : s.table k = some n) {f : Node → Node} (store : Store)
    (next : s.store.next ≤ store.next) (settled : store.moved = [])
    (good : ∀ t ∈ s.live, (t.modify k f).WellFormed store.vectors)
    (addrs : ∀ x, (addrsIn (f n).attr_map).count x ≤
      (addrsIn n.attr_map).count x + if s.store.next ≤ x ∧ x < store.next then 1 else 0) :
    Inv { s.onTable k f with store } where
  good := by
    intro t mem
    obtain ⟨u, there, rfl⟩ := List.mem_map.mp mem
    exact good u there
  unique := by
    intro x
    have counted := count_onTable inv.unique at_ f x
    have bound := addrs x
    obtain ⟨one, free⟩ := inv.unique x
    change (s.onTable k f).count x ≤ 1 ∧ (store.next ≤ x → (s.onTable k f).count x = 0)
    constructor
    · split at bound
      · rename_i fresh
        have zero := free fresh.1
        omega
      · omega
    · intro beyond
      have zero := free (next.trans beyond)
      rw [if_neg (fun fresh => absurd fresh.2 (Nat.not_lt.mpr beyond))] at bound
      omega
  settled := settled

/-- The vectors change, but those with values keep some. -/
theorem Inv.filled (inv : s.Inv) {vectors : List (List Name)} (filled : Filled s.store.vectors vectors) :
    Inv { s with store := { s.store with vectors } } where
  good t mem := (inv.good t mem).filled filled
  unique := inv.unique
  settled := inv.settled

theorem Inv.push (inv : s.Inv) {k : Nat} {n : Node} (at_ : s.table k = some n) {e : Entry} (store : Store)
    (next : s.store.next ≤ store.next) (settled : store.moved = []) (filled : Filled s.store.vectors store.vectors)
    (unused : e.name ∉ n.attr_map.map Entry.name) (good : Good store.vectors k e)
    (present : ∀ t ∈ s.live, .table k ∈ t.holds → ∀ r ∈ e.aliased, r ∈ t.holds ∨ r ∈ e.holds)
    (addrs : ∀ x, e.addrs.count x ≤ if s.store.next ≤ x ∧ x < store.next then 1 else 0) :
    Inv { s.push k e with store } := by
  apply inv.onTable at_ store next settled
  · intro t mem
    apply (inv.good t mem).push filled
    · intro m inside
      rw [eq_table inv.unique at_ mem inside]
      exact unused
    · intro _ _
      exact good
    · exact present t mem
  · intro x
    have bound := addrs x
    rw [addrsIn_append, List.count_append]
    simp only [addrsIn, List.append_nil]
    omega

theorem not_mem_of_simple_find {es : List Entry} {lname : Name} (missed : simple_find es lname = none) :
    lname ∉ es.map Entry.name := by
  intro mem
  obtain ⟨e, there, named⟩ := List.mem_map.mp mem
  have other := List.find?_eq_none.mp missed e there
  simp [named] at other

theorem filled_modify {vectors : List (List Name)} {v : Nat} {f : List Name → List Name}
    (some_ : ∀ l ∈ vectors[v]?, l ≠ [] → f l ≠ []) : Filled vectors (vectors.modify v f) := by
  intro w l mem more
  rw [List.getElem?_modify]
  split
  · rename_i same
    subst same
    exact ⟨f l, by rw [Option.mem_def.mp mem]; rfl, some_ l mem more⟩
  · exact ⟨l, by rw [Option.mem_def.mp mem]; rfl, more⟩

/-! ## The operations -/

theorem Inv.create (inv : s.Inv) : s.create.Inv where
  good := by
    intro t mem
    rcases List.mem_append.mp mem with mem | mem
    · exact inv.good t mem
    · obtain rfl := List.mem_singleton.mp mem
      refine ⟨List.nodup_nil, ?_, fun r mem => absurd mem List.not_mem_nil⟩
      rw [GoodIn]
      trivial
  unique := by
    intro x
    obtain ⟨one, free⟩ := inv.unique x
    have counted : s.create.count x = s.count x + if s.store.next = x then 1 else 0 := by
      simp [count, Attributes.create, AttrTable.addrs, addrsIn, List.count_cons]
    change s.create.count x ≤ 1 ∧ (s.store.next + 1 ≤ x → s.create.count x = 0)
    rw [counted]
    constructor
    · split
      · rename_i same
        have zero := free same.le
        omega
      · omega
    · intro beyond
      rw [free (by omega), if_neg (by omega)]
  settled := inv.settled

theorem Inv.append_attr (inv : s.Inv) {k : Nat} {name type : Name} {values : List Name}
    (ok : s.Ok (.append_attr k name type values)) (done : s.append_attr k name type values = some s') : s'.Inv := by
  obtain ⟨n, at_, done⟩ := Option.bind_eq_some_iff.mp done
  split at done
  · rename_i e found
    split at done
    · cases done
    · split at done
      · cases done
      · split at done
        · obtain rfl := Option.some.inj done
          apply inv.filled
          apply filled_modify
          intro l _ some_
          exact List.append_ne_nil_of_left_ne_nil some_ values
        · cases done
  · rename_i missed
    obtain rfl := Option.some.inj done
    have unused := not_mem_of_simple_find missed
    have new : String_to_AttrType type ≠ .container ∧ values ≠ [] := by
      rcases ok with ⟨m, mem, there⟩ | new
      · obtain rfl := Option.some.inj (at_.symm.trans mem)
        exact absurd there unused
      · exact new
    refine inv.push at_ (s.store.newVector values) le_rfl inv.settled
      (filled_of_longer (List.prefix_append _ _)) unused ?_ ?_ ?_
    · rw [Good]
      exact ⟨new.1, _, rfl, values, List.getElem?_concat_length, new.2⟩
    · intro t _ _ r mem
      simp [aliased] at mem
    · intro x
      simp [addrs]

theorem Inv.append_container (inv : s.Inv) {k : Nat} {name : Name} (ok : s.Ok (.append_container k name))
    (done : s.append_container k name = some s') : s'.Inv := by
  obtain ⟨n, at_, done⟩ := Option.bind_eq_some_iff.mp done
  split at done
  · cases done
  · obtain rfl := Option.some.inj done
    refine inv.push at_ { s.store with next := s.store.next + 1 } (Nat.le_succ _) inv.settled
      (filled_of_longer List.prefix_rfl) (fun there => ok ⟨n, at_, there⟩) ?_ ?_ ?_
    · rw [Good, GoodIn]
      exact ⟨rfl, List.nodup_nil, trivial⟩
    · intro t _ _ r mem
      simp [aliased, aliasedIn] at mem
    · intro x
      simp only [addrs, addrsIn, List.count_cons, List.count_nil]
      split <;> split <;> simp_all

theorem Inv.add_container_alias (inv : s.Inv) {k src : Nat} {name : Name}
    (ok : s.Ok (.add_container_alias k name src)) (done : s.add_container_alias k name src = some s') : s'.Inv := by
  obtain ⟨n, at_, done⟩ := Option.bind_eq_some_iff.mp done
  split at done
  · cases done
  · rename_i missed
    obtain ⟨m, -, done⟩ := Option.bind_eq_some_iff.mp done
    obtain rfl := Option.some.inj done
    refine inv.push at_ s.store le_rfl inv.settled (filled_of_longer List.prefix_rfl)
      (not_mem_of_simple_find missed) ?_ ?_ ?_
    · rw [Good]
      trivial
    · intro t mem there r only
      rw [aliased, List.mem_singleton] at only
      subst only
      exact .inl (ok t mem there)
    · intro x
      simp [addrs]

theorem aliasOf_name (lname lsource : Name) (e : Entry) : (aliasOf lname lsource e).name = lname := by
  cases e <;> rfl

theorem aliasOf_addrs (lname lsource : Name) (e : Entry) : (aliasOf lname lsource e).addrs = [] := by
  cases e <;> rfl

/-- An alias stands for what its source has the address of. -/
theorem aliasOf_aliased {lname lsource : Name} {e : Entry} {r : Ref} (at_ : e.ref = some r) :
    (aliasOf lname lsource e).aliased = [r] := by
  cases e with
  | attr name type aliased_to values =>
      simp only [Entry.ref] at at_
      simp only [aliasOf, aliased]
      split at at_
      · cases at_
      · rename_i plain
        rw [if_neg plain, at_]
        rfl
  | containerAlias | container =>
      simp only [Entry.ref, Option.some.injEq] at at_
      simp only [aliasOf, aliased, at_]

section

variable {vectors : List (List Name)} {k : Nat}

mutual

theorem good_of_inside (e : Entry) {holder : Nat} (good : Good vectors holder e) {n : Node} (at_ : n ∈ e.inside k) :
    (n.attr_map.map Entry.name).Nodup ∧ GoodIn vectors k n.attr_map := by
  cases e with
  | attr | containerAlias =>
      rw [inside] at at_
      cases at_
  | container name addr d_name d_parent attr_map =>
      rw [Good] at good
      rw [inside] at at_
      split at at_
      · rename_i same
        obtain rfl := List.mem_singleton.mp at_
        subst same
        exact good.2
      · exact goodIn_of_inside attr_map good.2.2 at_

theorem goodIn_of_inside (es : List Entry) {holder : Nat} (good : GoodIn vectors holder es) {n : Node}
    (at_ : n ∈ insideIn k es) : (n.attr_map.map Entry.name).Nodup ∧ GoodIn vectors k n.attr_map := by
  cases es with
  | nil =>
      rw [insideIn] at at_
      cases at_
  | cons e es =>
      rw [GoodIn] at good
      rw [insideIn, List.mem_append] at at_
      rcases at_ with at_ | at_
      · exact good_of_inside e good.1 at_
      · exact goodIn_of_inside es good.2 at_

end

end

theorem Inv.table (inv : s.Inv) {k : Nat} {n : Node} (at_ : s.table k = some n) :
    (n.attr_map.map Entry.name).Nodup ∧ GoodIn s.store.vectors k n.attr_map := by
  obtain ⟨t, mem, inside⟩ := table_mem at_
  have good := inv.good t mem
  unfold AttrTable.inside at inside
  split at inside
  · rename_i same
    obtain rfl := List.mem_singleton.mp inside
    subst same
    exact ⟨good.names, good.entries⟩
  · exact goodIn_of_inside _ good.entries inside

/-- An entry is in a table. -/
def Here (s : Attributes) (e : Entry) : Prop := ∃ k, ∃ n ∈ s.table k, e ∈ n.attr_map

/-- What the search in all tables below finds is in one of them. -/
theorem recurrsive_find_here {target : Name} {fuel : Nat} {e : Entry} :
    (∀ k, s.recurrsive_find target fuel k = some (some e) → s.Here e) ∧
      ∀ k, ∀ n ∈ s.table k, ∀ es ⊆ n.attr_map, recurrsive_find.loop s target fuel es = some (some e) → s.Here e := by
  induction fuel with
  | zero =>
      refine ⟨fun k found => ?_, fun k n at_ es sub found => ?_⟩
      · rw [recurrsive_find] at found
        cases found
      · rw [recurrsive_find.loop] at found
        cases found
  | succ fuel ih =>
      constructor
      · intro k found
        rw [recurrsive_find] at found
        obtain ⟨n, at_, found⟩ := Option.bind_eq_some_iff.mp found
        exact ih.2 k n at_ n.attr_map (List.Subset.refl _) found
      · intro k n at_ es sub found
        cases es with
        | nil =>
            rw [recurrsive_find.loop] at found
            cases found
        | cons d ds =>
            obtain ⟨here, rest⟩ := List.cons_subset.mp sub
            have branch : ∀ addr r, s.recurrsive_find target fuel addr = some r → ∀ next,
                next = r.elim (recurrsive_find.loop s target fuel ds) (fun c => some (some c)) →
                  next = some (some e) → s.Here e := by
              intro addr r inner next same found
              rw [same] at found
              cases r with
              | none => exact ih.2 k n at_ ds rest found
              | some c =>
                  obtain rfl := Option.some.inj (Option.some.inj found)
                  exact ih.1 addr inner
            unfold recurrsive_find.loop at found
            split at found
            · obtain rfl := Option.some.inj (Option.some.inj found)
              exact ⟨k, n, at_, here⟩
            · split at found
              · obtain ⟨r, inner, found⟩ := Option.bind_eq_some_iff.mp found
                exact branch _ r inner _ (by cases r <;> rfl) found
              · obtain ⟨r, inner, found⟩ := Option.bind_eq_some_iff.mp found
                exact branch _ r inner _ (by cases r <;> rfl) found
              · cases found
              · exact ih.2 k n at_ ds rest found

theorem find_here {fuel k : Nat} {target : Name} {e : Entry} (found : s.find fuel k target = some (some e)) :
    s.Here e := by
  unfold find at found
  split at found
  · obtain ⟨at_, -, found⟩ := Option.bind_eq_some_iff.mp found
    split at found
    · obtain ⟨n, there, found⟩ := Option.bind_eq_some_iff.mp found
      exact ⟨_, n, there, List.mem_of_find?_eq_some (Option.some.inj found)⟩
    · cases Option.some.inj found
  · exact recurrsive_find_here.1 k found

theorem find_source_here {fuel k das : Nat} {lsource : Name} {e : Entry}
    (found : s.find_source fuel k das lsource = some e) : s.Here e := by
  obtain ⟨r, first, found⟩ := Option.bind_eq_some_iff.mp found
  cases r with
  | some d =>
      obtain rfl := Option.some.inj found
      exact find_here first
  | none =>
      obtain ⟨r', second, found⟩ := Option.bind_eq_some_iff.mp found
      obtain rfl : r' = some e := found
      exact find_here second

theorem aliasOf_good {vectors : List (List Name)} {holder : Nat} {e : Entry} (good : Good vectors holder e)
    (lname lsource : Name) (k : Nat) : Good vectors k (aliasOf lname lsource e) := by
  cases e with
  | attr name type aliased_to values =>
      rw [Good] at good
      simp only [aliasOf, if_neg good.1]
      rw [Good]
      exact good
  | containerAlias | container =>
      simp only [aliasOf]
      rw [Good]
      trivial

theorem Inv.add_value_alias (inv : s.Inv) {fuel k das : Nat} {name source : Name}
    (ok : s.Ok (.add_value_alias k das name source)) (done : s.add_value_alias fuel k das name source = some s') :
    s'.Inv := by
  obtain ⟨e, found, done⟩ := Option.bind_eq_some_iff.mp done
  split at done
  · cases done
  · obtain ⟨n, at_, done⟩ := Option.bind_eq_some_iff.mp done
    split at done
    · cases done
    · rename_i missed
      obtain rfl := Option.some.inj done
      obtain ⟨j, m, there, mem⟩ := find_source_here found
      obtain ⟨r, ref, beside⟩ := ok fuel e found
      refine inv.push at_ s.store le_rfl inv.settled (filled_of_longer List.prefix_rfl) ?_ ?_ ?_ ?_
      · rw [aliasOf_name]
        exact not_mem_of_simple_find missed
      · exact aliasOf_good (goodIn_iff.mp (inv.table there).2 e mem) _ _ k
      · intro t live there r' only
        rw [aliasOf_aliased ref, List.mem_singleton] at only
        subst only
        exact .inl (beside t live there)
      · intro x
        simp [aliasOf_addrs]

theorem addrsIn_sublist {es es' : List Entry} (sub : es'.Sublist es) : (addrsIn es').Sublist (addrsIn es) := by
  induction sub with
  | slnil => exact .slnil
  | cons e _ ih =>
      rw [addrsIn]
      exact ih.trans (List.sublist_append_right _ _)
  | cons_cons e _ ih =>
      rw [addrsIn, addrsIn]
      exact (List.Sublist.refl _).append ih

theorem aliasedIn_subset {es es' : List Entry} (sub : es'.Sublist es) : aliasedIn es' ⊆ aliasedIn es := by
  induction sub with
  | slnil => exact List.Subset.refl _
  | cons e _ ih =>
      rw [aliasedIn]
      exact List.Subset.trans ih (List.subset_append_right _ _)
  | cons_cons e _ ih =>
      rw [aliasedIn, aliasedIn]
      exact List.append_subset.mpr ⟨List.subset_append_left _ _,
        List.Subset.trans ih (List.subset_append_right _ _)⟩

/-- Some entries of a table are taken away. -/
theorem Inv.remove (inv : s.Inv) {k : Nat} {n : Node} (at_ : s.table k = some n) {f : Node → Node}
    (parent : ∀ n, (f n).d_parent = n.d_parent) (sub : ∀ n, (f n).attr_map.Sublist n.attr_map)
    (spares : s.Spares k f) : (s.onTable k f).Inv := by
  refine inv.onTable at_ s.store le_rfl inv.settled ?_ ?_
  · intro t mem
    apply (inv.good t mem).modify (filled_of_longer List.prefix_rfl)
    · intro m _
      refine ⟨parent m, fun names entries => ⟨names.sublist ((sub m).map _), ?_⟩⟩
      rw [goodIn_iff] at entries ⊢
      intro e mem
      exact entries e ((sub m).subset mem)
    · exact spares t mem
    · intro m _ r mem
      exact .inl (aliasedIn_subset (sub m) mem)
  · intro x
    have fewer := (addrsIn_sublist (sub n)).count_le x
    omega

theorem Inv.del_attr (inv : s.Inv) {k : Nat} {name : Name} {i : Option Nat} (ok : s.Ok (.del_attr k name i))
    (done : s.del_attr k name i = some s') : s'.Inv := by
  obtain ⟨n, at_, done⟩ := Option.bind_eq_some_iff.mp done
  split at done
  · obtain rfl := Option.some.inj done
    exact inv
  · rename_i e found
    cases i with
    | none =>
        obtain rfl := Option.some.inj done
        exact inv.remove at_ (f := without (remove_space_encoding name)) (fun _ => rfl)
          (fun n => List.eraseP_sublist) ok
    | some i =>
        simp only at done
        split at done
        · obtain rfl := Option.some.inj done
          exact inv
        · split at done
          · rename_i v ref
            split at done
            · rename_i bound
              obtain rfl := Option.some.inj done
              apply inv.filled
              apply filled_modify
              intro l mem _ gone
              have long := ok n at_ e found (.vector v) ref v rfl
              rw [Option.mem_def.mp mem, Option.getD_some] at long bound
              have less := congrArg List.length gone
              rw [List.length_eraseIdx_of_lt bound, List.length_nil] at less
              omega
            · cases done
          · cases done

theorem onTable_of_no_table {k : Nat} (none_ : s.table k = none) (f : Node → Node) : s.onTable k f = s := by
  have nowhere : s.live.flatMap (AttrTable.inside k) = [] := List.head?_eq_none_iff.mp none_
  have all : s.live.map (AttrTable.modify k f) = s.live := by
    rw [List.map_congr_left (g := id), List.map_id]
    intro t mem
    exact AttrTable.modify_of_not_inside (List.flatMap_eq_nil_iff.mp nowhere t mem)
  rw [onTable, all]

theorem Inv.erase (inv : s.Inv) {k : Nat} (ok : s.Ok (.erase k)) : (s.erase k).Inv := by
  cases at_ : s.table k with
  | none =>
      rw [Attributes.erase, onTable_of_no_table at_]
      exact inv
  | some n => exact inv.remove at_ (fun _ => rfl) (fun n => List.nil_sublist _) ok

/-- A tree that becomes a container leaves its addresses. -/
theorem count_filter (x : Nat) {live : List AttrTable} {t : AttrTable} (mem : t ∈ live) :
    ((live.filter (·.addr ≠ t.addr)).flatMap AttrTable.addrs).count x + t.addrs.count x ≤
      (live.flatMap AttrTable.addrs).count x := by
  induction live with
  | nil => cases mem
  | cons u us ih =>
      rw [List.flatMap_cons, List.count_append]
      rcases List.mem_cons.mp mem with rfl | mem
      · have fewer := ((List.filter_sublist (l := us) (p := (decide <| ·.addr ≠ t.addr))).flatMap AttrTable.addrs).count_le x
        rw [List.filter_cons_of_neg (by simp)]
        omega
      · have rest := ih mem
        by_cases same : u.addr ≠ t.addr
        · rw [List.filter_cons_of_pos (by simpa using same), List.flatMap_cons, List.count_append]
          omega
        · rw [List.filter_cons_of_neg (by simpa using same)]
          omega

theorem Inv.append_container_at (inv : s.Inv) {k at_ : Nat} {name : Name} (ok : s.Ok (.append_container_at k at_ name))
    (done : s.append_container_at k at_ name = some s') : s'.Inv := by
  obtain ⟨t, found, done⟩ := Option.bind_eq_some_iff.mp done
  have mem := List.mem_of_find?_eq_some found
  have named : t.addr = at_ := by simpa using List.find?_some found
  subst named
  obtain ⟨n, there, done⟩ := Option.bind_eq_some_iff.mp done
  split at done
  · cases done
  · obtain rfl := Option.some.inj done
    have good := inv.good t mem
    have fewer := fun x => count_filter x mem
    have rest : Inv { s with live := s.live.filter (·.addr ≠ t.addr) } := by
      refine ⟨fun u mem => inv.good u (List.mem_of_mem_filter mem), fun x => ?_, inv.settled⟩
      obtain ⟨one, free⟩ := inv.unique x
      have bound := fewer x
      simp only [count] at one free ⊢
      exact ⟨by omega, fun beyond => by have zero := free beyond; omega⟩
    have same : s.table k = some n := by
      obtain ⟨u, mem, inside⟩ := table_mem there
      have there' : n ∈ s.live.flatMap (AttrTable.inside k) :=
        List.mem_flatMap.mpr ⟨u, List.mem_of_mem_filter mem, inside⟩
      cases at_ : s.table k with
      | none =>
          rw [List.head?_eq_none_iff.mp at_] at there'
          cases there'
      | some m => rw [eq_table inv.unique at_ (List.mem_of_mem_filter mem) inside]
    refine ⟨?_, ?_, inv.settled⟩
    · intro u mem
      obtain ⟨v, live, rfl⟩ := List.mem_map.mp mem
      apply (rest.good v live).push (filled_of_longer List.prefix_rfl)
      · intro m inside
        rw [eq_table rest.unique there live inside]
        exact fun used => ok ⟨n, same, used⟩
      · intro _ _
        rw [Good]
        exact ⟨rfl, good.names, good.entries⟩
      · intro _ r alias_
        exact .inr (good.present r alias_)
    · intro x
      have counted := count_onTable rest.unique there (fun n => { n with attr_map := n.attr_map ++
        [.container (remove_space_encoding name) t.addr (remove_space_encoding (remove_space_encoding name)) (some k)
          t.attr_map] }) x
      have bound := fewer x
      obtain ⟨one, free⟩ := inv.unique x
      rw [addrsIn_append, List.count_append] at counted
      simp only [addrsIn, addrs, List.append_nil] at counted
      change count (Attributes.push _ _ _) x ≤ 1 ∧ (s.store.next ≤ x → count (Attributes.push _ _ _) x = 0)
      simp only [Attributes.push]
      simp only [count, AttrTable.addrs] at one free bound counted ⊢
      exact ⟨by omega, fun beyond => by have zero := free beyond; omega⟩

/-! ## Copies -/

mutual

/-- The tables of a copy have the addresses that were free, one after the other. -/
theorem copy_addrs (parent : Nat) (e : Entry) {s s' : Store} {e' : Entry} (done : Entry.copy parent e s = some (e', s')) :
    e'.addrs = List.range' s.next (s'.next - s.next) ∧ s.next ≤ s'.next := by
  cases e with
  | attr name type aliased_to values =>
      have same : e'.addrs = [] ∧ s'.next = s.next := by
        unfold Entry.copy at done
        split at done
        · obtain ⟨rfl, rfl⟩ := Prod.mk.inj (Option.some.inj done)
          exact ⟨rfl, rfl⟩
        · cases done
        · obtain ⟨rfl, rfl⟩ := Prod.mk.inj (Option.some.inj done)
          exact ⟨rfl, rfl⟩
        · cases done
        · obtain ⟨l, -, rest⟩ := Option.bind_eq_some_iff.mp done
          obtain ⟨rfl, rfl⟩ := Prod.mk.inj (Option.some.inj rest)
          exact ⟨rfl, rfl⟩
      rw [same.1, same.2, Nat.sub_self]
      exact ⟨rfl, le_rfl⟩
  | containerAlias =>
      rw [Entry.copy] at done
      obtain ⟨rfl, rfl⟩ := Prod.mk.inj (Option.some.inj done)
      simp [addrs, Store.move]
  | container name addr d_name d_parent attr_map =>
      rw [Entry.copy] at done
      obtain ⟨⟨es, t⟩, all, rest⟩ := Option.bind_eq_some_iff.mp done
      obtain ⟨rfl, rfl⟩ := Prod.mk.inj (Option.some.inj rest)
      obtain ⟨below, more⟩ := copyIn_addrs s.next attr_map all
      simp only at below more
      refine ⟨?_, by omega⟩
      rw [addrs, below, ← List.range'_succ]
      congr 1
      omega

theorem copyIn_addrs (parent : Nat) (es : List Entry) {s s' : Store} {es' : List Entry}
    (done : copyIn parent es s = some (es', s')) :
    addrsIn es' = List.range' s.next (s'.next - s.next) ∧ s.next ≤ s'.next := by
  cases es with
  | nil =>
      rw [copyIn] at done
      obtain ⟨rfl, rfl⟩ := Prod.mk.inj (Option.some.inj done)
      simp [addrsIn]
  | cons e es =>
      rw [copyIn] at done
      obtain ⟨⟨e₁, s₁⟩, one, done⟩ := Option.bind_eq_some_iff.mp done
      obtain ⟨⟨es₁, s₂⟩, others, done⟩ := Option.bind_eq_some_iff.mp done
      obtain ⟨rfl, rfl⟩ := Prod.mk.inj (Option.some.inj done)
      obtain ⟨first, more⟩ := copy_addrs parent e one
      obtain ⟨rest, more'⟩ := copyIn_addrs parent es others
      refine ⟨?_, more.trans more'⟩
      have joined := List.range'_append_1 (s := s.next) (m := s₁.next - s.next) (n := s₂.next - s₁.next)
      rw [Nat.add_sub_cancel' more] at joined
      rw [addrsIn, first, rest, joined]
      congr 1
      omega

end

theorem count_range' (x a b : Nat) : (List.range' a (b - a)).count x = if a ≤ x ∧ x < b then 1 else 0 := by
  rw [List.Nodup.count List.nodup_range']
  simp only [List.mem_range'_1]
  congr 1
  apply propext
  omega

mutual

theorem reparent_nil (e : Entry) : e.reparent [] = e := by
  cases e with
  | attr | containerAlias => rw [reparent]
  | container name addr d_name d_parent attr_map =>
      rw [reparent, reparentIn_nil]
      rfl

theorem reparentIn_nil (es : List Entry) : reparentIn [] es = es := by
  cases es with
  | nil => rw [reparentIn]
  | cons e es => rw [reparentIn, reparent_nil, reparentIn_nil]

end

theorem settle_eq (settled : s.store.moved = []) : s.settle = s := by
  have all : s.live.map (AttrTable.reparent []) = s.live := by
    rw [List.map_congr_left (g := id), List.map_id]
    intro t _
    rw [AttrTable.reparent, reparentIn_nil]
    rfl
  rw [settle, settled, all, ← settled]

/-- What is known of a copy of the entries of a table. -/
theorem Inv.copyIn (inv : s.Inv) {rhs : Nat} (ok : s.Copyable rhs) {n : Node} (at_ : s.table rhs = some n) {parent : Nat}
    (next : Nat) {es : List Entry} {store : Store} (done : Entry.copyIn parent n.attr_map { s.store with next } = some (es, store)) :
    store.moved = [] ∧ s.store.vectors <+: store.vectors ∧ es.map Entry.name = n.attr_map.map Entry.name ∧
      aliasedIn es = [] ∧ GoodIn store.vectors parent es := by
  obtain ⟨plain, known⟩ := ok n at_
  obtain ⟨moved, rest⟩ := copyIn_good parent n.attr_map (s := { s.store with next }) (inv.table at_).2 known plain done
  exact ⟨moved.trans inv.settled, rest⟩

theorem Inv.copy (inv : s.Inv) {rhs : Nat} (ok : s.Ok (.copy rhs)) (done : s.copy rhs = some s') : s'.Inv := by
  obtain ⟨n, at_, done⟩ := Option.bind_eq_some_iff.mp done
  obtain ⟨⟨t, store⟩, copied, done⟩ := Option.bind_eq_some_iff.mp done
  obtain rfl := Option.some.inj done
  obtain ⟨⟨es, store'⟩, all, rest⟩ := Option.bind_eq_some_iff.mp copied
  obtain ⟨rfl, rfl⟩ := Prod.mk.inj (Option.some.inj rest)
  obtain ⟨settled, vectors, names, plain, good⟩ := inv.copyIn ok at_ _ all
  obtain ⟨addrs, next⟩ := copyIn_addrs _ _ all
  rw [settle_eq settled]
  refine ⟨?_, ?_, settled⟩
  · intro t mem
    rcases List.mem_append.mp mem with mem | mem
    · exact (inv.good t mem).filled (filled_of_longer vectors)
    · obtain rfl := List.mem_singleton.mp mem
      refine ⟨by rw [names]; exact (inv.table at_).1, good, ?_⟩
      intro r mem
      simp only [AttrTable.aliased, plain] at mem
      cases mem
  · intro x
    obtain ⟨one, free⟩ := inv.unique x
    have counted := count_range' x (s.store.next + 1) store'.next
    simp only at next addrs
    rw [← addrs] at counted
    have total : count ⟨s.live ++ [⟨⟨n.d_name, none, es⟩, s.store.next⟩], store'⟩ x =
        s.count x + ((if s.store.next + 1 ≤ x ∧ x < store'.next then 1 else 0) + if s.store.next = x then 1 else 0) := by
      rw [← counted]
      simp only [count, List.flatMap_append, List.flatMap_cons, List.flatMap_nil, List.append_nil, List.count_append,
        AttrTable.addrs, List.count_cons, beq_iff_eq]
    rw [total]
    change _ ∧ (store'.next ≤ x → _)
    by_cases fresh : s.store.next ≤ x
    · rw [free fresh]
      refine ⟨by split <;> split <;> omega, ?_⟩
      intro beyond
      rw [if_neg (fun h => by omega), if_neg (fun h => by omega)]
    · rw [if_neg (fun h => by omega), if_neg (fun h => by omega)]
      refine ⟨one, ?_⟩
      intro beyond
      exact absurd (Nat.le_trans (Nat.le_of_succ_le next) beyond) fresh

/-- `operator=` for a table that is in no other. -/
theorem assign_eq {k : Nat} {n : Node} {es : List Entry} (root : ∀ t ∈ s.live, .table k ∉ holdsIn t.attr_map)
    (f : Node → Node) : (s.onTable k f).onTable k (fun _ => ⟨n.d_name, none, es⟩) = s.onTable k fun _ => ⟨n.d_name, none, es⟩ := by
  rw [onTable, onTable, onTable, List.map_map]
  congr 1
  apply List.map_congr_left
  intro t mem
  by_cases same : t.addr = k
  · simp [AttrTable.modify, same]
  · have none_ : t.inside k = [] := by
      rw [AttrTable.inside, if_neg same, List.eq_nil_iff_forall_not_mem]
      intro m inside
      exact root t mem (table_mem_of_insideIn _ inside)
    simp only [Function.comp, AttrTable.modify_of_not_inside none_]

theorem Inv.assign (inv : s.Inv) {k rhs : Nat} (ok : s.Ok (.assign k rhs)) (done : s.assign k rhs = some s') :
    s'.Inv := by
  unfold Attributes.assign at done
  split at done
  · obtain rfl := Option.some.inj done
    exact inv
  · rename_i other
    obtain ⟨copyable, root⟩ := ok.resolve_left other
    obtain ⟨n, there, done⟩ := Option.bind_eq_some_iff.mp done
    obtain ⟨⟨es, store⟩, all, done⟩ := Option.bind_eq_some_iff.mp done
    obtain rfl := Option.some.inj done
    have apart : ∀ t ∈ s.live, t.addr ≠ k → t.inside k = [] := by
      intro t mem differs
      rw [AttrTable.inside, if_neg differs, List.eq_nil_iff_forall_not_mem]
      intro m inside
      exact root t mem (table_mem_of_insideIn _ inside)
    have from_ : s.table rhs = some n := by
      obtain ⟨u, mem, inside⟩ := table_mem there
      obtain ⟨t, live, rfl⟩ := List.mem_map.mp mem
      by_cases same : t.addr = k
      · have gone : (t.modify k fun n => { n with attr_map := [] }).inside rhs = [] := by
          simp [AttrTable.modify, same, AttrTable.inside, other, insideIn]
        rw [gone] at inside
        cases inside
      · rw [AttrTable.modify_of_not_inside (apart t live same)] at inside
        have somewhere : n ∈ s.live.flatMap (AttrTable.inside rhs) := List.mem_flatMap.mpr ⟨t, live, inside⟩
        cases at_ : s.table rhs with
        | none =>
            rw [List.head?_eq_none_iff.mp at_] at somewhere
            cases somewhere
        | some m => rw [eq_table inv.unique at_ live inside]
    obtain ⟨settled, vectors, names, plain, good⟩ := inv.copyIn copyable from_ s.store.next all
    obtain ⟨addrs, next⟩ := copyIn_addrs _ _ all
    have filled := filled_of_longer vectors
    simp only [assign_eq root]
    rw [settle_eq settled]
    cases at_ : s.table k with
    | none =>
        rw [onTable_of_no_table at_]
        refine ⟨fun t mem => (inv.good t mem).filled filled, fun x => ?_, settled⟩
        obtain ⟨one, free⟩ := inv.unique x
        exact ⟨one, fun beyond => free (next.trans beyond)⟩
    | some m =>
        apply inv.onTable at_ store next settled
        · intro t mem
          by_cases same : t.addr = k
          · simp only [AttrTable.modify, if_pos same]
            refine ⟨by rw [names]; exact (inv.table from_).1, by rw [same]; exact good, ?_⟩
            intro r mem
            simp only [AttrTable.aliased, plain] at mem
            cases mem
          · rw [AttrTable.modify_of_not_inside (apart t mem same)]
            exact (inv.good t mem).filled filled
        · intro x
          change (addrsIn es).count x ≤ _
          rw [addrs, count_range']
          exact Nat.le_add_left _ _

/-! ## Runs -/

theorem Inv.step {op : Op} (inv : s.Inv) (ok : s.Ok op) (step : Step s op s') : s'.Inv := by
  cases step with
  | create => exact inv.create
  | append_attr done => exact inv.append_attr ok done
  | append_container done => exact inv.append_container ok done
  | append_container_at done => exact inv.append_container_at ok done
  | add_container_alias done => exact inv.add_container_alias ok done
  | add_value_alias done => exact inv.add_value_alias ok done
  | del_attr done => exact inv.del_attr ok done
  | erase => exact inv.erase ok
  | copy done => exact inv.copy ok done
  | assign done => exact inv.assign ok done

/-- In every run whose steps all meet their condition, all tables are well formed. -/
theorem run_wellFormed {ops : List Op} (run : Run (Under Ok Step) ⟨[], ⟨[], 0, []⟩⟩ ops s) :
    ∀ t ∈ s.live, t.WellFormed s.store.vectors :=
  (run.keeps (fun inv taken => inv.step taken.1 taken.2) Inv.start).good

/-- A table with an attribute and a container. -/
theorem filled_run_wellFormed :
    (⟨⟨[], none, [.attr ['a'] .byte none (some 0), .container ['c'] 1 ['c'] (some 0) []]⟩, 0⟩ : AttrTable).WellFormed
      [["1".toList]] := by
  have free : ¬Names ⟨[⟨⟨[], none, [.attr ['a'] .byte none (some 0)]⟩, 0⟩], ⟨[["1".toList]], 1, []⟩⟩ 0 ['c'] := by
    intro there
    obtain ⟨n, at_, mem⟩ := there
    obtain rfl := Option.some.inj at_
    revert mem
    decide
  have run : Run (Under Ok Step) ⟨[], ⟨[], 0, []⟩⟩
      [.create, .append_attr 0 ['a'] "Byte".toList ["1".toList], .append_container 0 ['c']]
      ⟨[⟨⟨[], none, [.attr ['a'] .byte none (some 0), .container ['c'] 1 ['c'] (some 0) []]⟩, 0⟩],
        ⟨[["1".toList]], 2, []⟩⟩ :=
    .cons ⟨trivial, .create _⟩
      (.cons ⟨.inr ⟨by decide, by decide⟩, .append_attr rfl⟩ (.cons ⟨free, .append_container rfl⟩ (.nil _)))
  exact run_wellFormed run _ List.mem_cons_self

/-- After the only value of an attribute is deleted, the attribute is still there. -/
theorem emptied_attr : ∃ ops s, Run Step ⟨[], ⟨[], 0, []⟩⟩ ops s ∧ ¬∀ t ∈ s.live, t.WellFormed s.store.vectors := by
  refine ⟨[.create, .append_attr 0 ['a'] "Byte".toList ["1".toList], .del_attr 0 ['a'] (some 0)],
    ⟨[⟨⟨[], none, [.attr ['a'] .byte none (some 0)]⟩, 0⟩], ⟨[[]], 1, []⟩⟩,
    .cons (.create _) (.cons (.append_attr rfl) (.cons (.del_attr rfl) (.nil _))), ?_⟩
  intro all
  obtain ⟨⟨-, v, at_, l, mem, filled⟩, -⟩ := (all _ List.mem_cons_self).entries
  obtain rfl := Option.some.inj at_
  obtain rfl := Option.some.inj mem
  exact filled rfl

end Libdap.Dap2.Attributes
