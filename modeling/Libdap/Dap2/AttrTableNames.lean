import Libdap.Dap2.AttrTable

/-! # Names in attribute tables

Whatever is done with tables, all names in them have gone through `remove_space_encoding`, and are as it
leaves them.
-/

namespace Libdap.Dap2

open Dap4 (Name)

theorem remove_space_encoding_cons {c : Char} {cs : Name} (other : ¬ ['%', '2', '0'] <+: c :: cs) :
    remove_space_encoding (c :: cs) = c :: remove_space_encoding cs := by
  rw [remove_space_encoding.eq_def]
  split
  next rest same => exact absurd ⟨rest, same.symm⟩ other
  next same =>
    obtain ⟨rfl, rfl⟩ := List.cons.inj same
    rfl
  next same => cases same

/-- A character that is no space is there from the start. -/
theorem head_of_remove {c : Char} {cs rest : Name} (other : c ≠ ' ') (starts : remove_space_encoding cs = c :: rest) :
    ∃ cs', cs = c :: cs' ∧ remove_space_encoding cs' = rest := by
  rw [remove_space_encoding.eq_def] at starts
  split at starts
  next => exact absurd (List.cons.inj starts).1.symm other
  next d ds _ =>
    obtain ⟨rfl, rfl⟩ := List.cons.inj starts
    exact ⟨ds, rfl, rfl⟩
  next => cases starts

/-- No escape comes up where another has been replaced. -/
theorem remove_space_encoding_idem (n : Name) : remove_space_encoding (remove_space_encoding n) = remove_space_encoding n := by
  fun_induction remove_space_encoding n with
  | case1 cs ih =>
      rw [remove_space_encoding_cons, ih]
      rintro ⟨rest, same⟩
      exact absurd (List.cons.inj same).1 (by decide)
  | case2 c cs other ih =>
      rw [remove_space_encoding_cons, ih]
      rintro ⟨rest, same⟩
      obtain ⟨rfl, starts⟩ := List.cons.inj same
      obtain ⟨ds, rfl, behind⟩ := head_of_remove (by decide) starts.symm
      obtain ⟨es, rfl, -⟩ := head_of_remove (by decide) behind
      exact other es rfl rfl
  | case3 => rfl

/-- A name as `remove_space_encoding` leaves it. -/
def Decoded (n : Name) : Prop := remove_space_encoding n = n

theorem decoded (n : Name) : Decoded (remove_space_encoding n) := remove_space_encoding_idem n

namespace Entry

mutual

/-- All names in an entry are decoded. -/
def Clean : Entry → Prop
  | .attr name _ _ _ | .containerAlias name _ _ => Decoded name
  | .container name _ _ _ attr_map => Decoded name ∧ CleanIn attr_map

def CleanIn : List Entry → Prop
  | [] => True
  | e :: es => Clean e ∧ CleanIn es

end

theorem cleanIn_iff {es : List Entry} : CleanIn es ↔ ∀ e ∈ es, Clean e := by
  induction es with
  | nil => simp [CleanIn]
  | cons e es ih => simp [CleanIn, ih]

theorem CleanIn.append {es es' : List Entry} (clean : CleanIn es) (clean' : CleanIn es') : CleanIn (es ++ es') := by
  rw [cleanIn_iff] at *
  exact List.forall_mem_append.mpr ⟨clean, clean'⟩

theorem CleanIn.concat {es : List Entry} {e : Entry} (clean : CleanIn es) (last : Clean e) : CleanIn (es ++ [e]) :=
  clean.append ⟨last, trivial⟩

section

variable {k : Nat} {f : Node → Node}

mutual

theorem clean_modify (keeps : ∀ n, CleanIn n.attr_map → CleanIn (f n).attr_map) (e : Entry) (clean : Clean e) : Clean (e.modify k f) := by
  cases e with
  | attr | containerAlias =>
      rw [modify]
      exact clean
  | container name addr d_name d_parent attr_map =>
      rw [Clean] at clean
      rw [modify]
      split
      · exact ⟨clean.1, keeps _ clean.2⟩
      · exact ⟨clean.1, cleanIn_modify keeps attr_map clean.2⟩

theorem cleanIn_modify (keeps : ∀ n, CleanIn n.attr_map → CleanIn (f n).attr_map) (es : List Entry) (clean : CleanIn es) :
    CleanIn (modifyIn k f es) := by
  cases es with
  | nil =>
      rw [modifyIn]
      trivial
  | cons e es =>
      rw [modifyIn]
      exact ⟨clean_modify keeps e clean.1, cleanIn_modify keeps es clean.2⟩

end

end

mutual

theorem clean_inside {k : Nat} (e : Entry) (clean : Clean e) {n : Node} (at_ : n ∈ e.inside k) : CleanIn n.attr_map := by
  cases e with
  | attr | containerAlias => cases at_
  | container name addr d_name d_parent attr_map =>
      rw [Clean] at clean
      rw [inside] at at_
      split at at_
      · obtain rfl := List.mem_singleton.mp at_
        exact clean.2
      · exact cleanIn_inside attr_map clean.2 at_

theorem cleanIn_inside {k : Nat} (es : List Entry) (clean : CleanIn es) {n : Node} (at_ : n ∈ insideIn k es) :
    CleanIn n.attr_map := by
  cases es with
  | nil => cases at_
  | cons e es =>
      rw [insideIn] at at_
      rcases List.mem_append.mp at_ with here | there
      · exact clean_inside e clean.1 here
      · exact cleanIn_inside es clean.2 there

end

mutual

theorem clean_reparent (moved : List (Nat × Nat)) (e : Entry) (clean : Clean e) : Clean (e.reparent moved) := by
  cases e with
  | attr | containerAlias =>
      rw [reparent]
      exact clean
  | container name addr d_name d_parent attr_map =>
      rw [Clean] at clean
      rw [reparent]
      exact ⟨clean.1, cleanIn_reparent moved attr_map clean.2⟩

theorem cleanIn_reparent (moved : List (Nat × Nat)) (es : List Entry) (clean : CleanIn es) : CleanIn (reparentIn moved es) := by
  cases es with
  | nil =>
      rw [reparentIn]
      trivial
  | cons e es =>
      rw [reparentIn]
      exact ⟨clean_reparent moved e clean.1, cleanIn_reparent moved es clean.2⟩

end

mutual

theorem clean_copy (parent : Nat) (e : Entry) {s s' : Store} {e' : Entry} (clean : Clean e)
    (done : Entry.copy parent e s = some (e', s')) : Clean e' := by
  cases e with
  | attr name type aliased_to values =>
      unfold Entry.copy at done
      split at done
      next =>
        obtain ⟨rfl, -⟩ := Prod.mk.inj (Option.some.inj done)
        exact clean
      next => cases done
      next =>
        obtain ⟨rfl, -⟩ := Prod.mk.inj (Option.some.inj done)
        exact clean
      next => cases done
      next =>
        obtain ⟨l, -, rest⟩ := Option.bind_eq_some_iff.mp done
        obtain ⟨rfl, -⟩ := Prod.mk.inj (Option.some.inj rest)
        exact clean
  | containerAlias name aliased_to attributes =>
      rw [copy] at done
      obtain ⟨rfl, -⟩ := Prod.mk.inj (Option.some.inj done)
      exact clean
  | container name addr d_name d_parent attr_map =>
      rw [copy] at done
      obtain ⟨⟨es, store⟩, copied, rest⟩ := Option.bind_eq_some_iff.mp done
      obtain ⟨rfl, -⟩ := Prod.mk.inj (Option.some.inj rest)
      exact ⟨clean.1, cleanIn_copy _ attr_map clean.2 copied⟩

theorem cleanIn_copy (parent : Nat) (es : List Entry) {s s' : Store} {es' : List Entry} (clean : CleanIn es)
    (done : Entry.copyIn parent es s = some (es', s')) : CleanIn es' := by
  cases es with
  | nil =>
      rw [copyIn] at done
      obtain ⟨rfl, -⟩ := Prod.mk.inj (Option.some.inj done)
      trivial
  | cons e es =>
      rw [copyIn] at done
      obtain ⟨⟨e', store⟩, first, done⟩ := Option.bind_eq_some_iff.mp done
      obtain ⟨⟨es', store'⟩, others, rest⟩ := Option.bind_eq_some_iff.mp done
      obtain ⟨rfl, -⟩ := Prod.mk.inj (Option.some.inj rest)
      exact ⟨clean_copy parent e clean.1 first, cleanIn_copy parent es clean.2 others⟩

end

end Entry

namespace Attributes

open Entry

/-- All names in all tables are decoded. -/
def Clean (s : Attributes) : Prop := ∀ t ∈ s.live, CleanIn t.attr_map

variable {s s' : Attributes}

theorem Clean.table (clean : s.Clean) {k : Nat} {n : Node} (at_ : s.table k = some n) : CleanIn n.attr_map := by
  obtain ⟨t, mem, inside⟩ := List.mem_flatMap.mp (List.mem_of_head? at_)
  have here := clean t mem
  rw [AttrTable.inside] at inside
  split at inside
  · obtain rfl := List.mem_singleton.mp inside
    exact here
  · exact cleanIn_inside t.attr_map here inside

theorem Clean.onTable (clean : s.Clean) {k : Nat} {f : Node → Node} (keeps : ∀ n, CleanIn n.attr_map → CleanIn (f n).attr_map) :
    (s.onTable k f).Clean := by
  intro t mem
  obtain ⟨u, there, rfl⟩ := List.mem_map.mp mem
  have here := clean u there
  rw [AttrTable.modify]
  split
  · exact keeps u.toNode here
  · exact cleanIn_modify keeps u.attr_map here

theorem Clean.push (clean : s.Clean) (k : Nat) {e : Entry} (last : Entry.Clean e) : (s.push k e).Clean :=
  clean.onTable fun _ others => others.concat last

theorem Clean.settle (clean : s.Clean) : s.settle.Clean := by
  intro t mem
  obtain ⟨u, there, rfl⟩ := List.mem_map.mp mem
  exact cleanIn_reparent _ u.attr_map (clean u there)

theorem clean_aliasOf {lname lsource : Name} {e : Entry} (clean : Decoded lname) : Entry.Clean (aliasOf lname lsource e) := by
  cases e with
  | attr | containerAlias | container => exact clean

theorem Clean.append_attr (clean : s.Clean) {k : Nat} {name type : Name} {values : List Name}
    (done : s.append_attr k name type values = some s') : s'.Clean := by
  obtain ⟨n, at_, done⟩ := Option.bind_eq_some_iff.mp done
  split at done
  next e found =>
    split at done
    next => cases done
    next =>
      split at done
      next => cases done
      next =>
        split at done
        next =>
          obtain rfl := Option.some.inj done
          exact clean
        next => cases done
  next =>
    obtain rfl := Option.some.inj done
    exact clean.push k (decoded name)

theorem Clean.del_attr (clean : s.Clean) {k : Nat} {name : Name} {i : Option Nat} (done : s.del_attr k name i = some s') :
    s'.Clean := by
  obtain ⟨n, at_, done⟩ := Option.bind_eq_some_iff.mp done
  split at done
  next =>
    obtain rfl := Option.some.inj done
    exact clean
  next e found =>
    split at done
    next =>
      obtain rfl := Option.some.inj done
      apply clean.onTable
      intro n others
      rw [cleanIn_iff] at *
      exact fun e mem => others e (List.mem_of_mem_eraseP mem)
    next =>
      split at done
      next =>
        obtain rfl := Option.some.inj done
        exact clean
      next =>
        split at done
        next =>
          split at done
          next =>
            obtain rfl := Option.some.inj done
            exact clean
          next => cases done
        next => cases done

theorem Clean.append_container (clean : s.Clean) {k : Nat} {name : Name} (done : s.append_container k name = some s') :
    s'.Clean := by
  obtain ⟨n, at_, done⟩ := Option.bind_eq_some_iff.mp done
  split at done
  next => cases done
  next =>
    obtain rfl := Option.some.inj done
    exact clean.push k ⟨decoded name, trivial⟩

theorem Clean.append_container_at (clean : s.Clean) {k at_ : Nat} {name : Name}
    (done : s.append_container_at k at_ name = some s') : s'.Clean := by
  obtain ⟨t, found, done⟩ := Option.bind_eq_some_iff.mp done
  obtain ⟨n, there, done⟩ := Option.bind_eq_some_iff.mp done
  have others : Clean { s with live := s.live.filter (·.addr ≠ at_) } :=
    fun u mem => clean u (List.mem_filter.mp mem).1
  split at done
  next => cases done
  next =>
    obtain rfl := Option.some.inj done
    exact others.push k ⟨decoded name, clean t (List.mem_of_find?_eq_some found)⟩

theorem Clean.add_container_alias (clean : s.Clean) {k src : Nat} {name : Name}
    (done : s.add_container_alias k name src = some s') : s'.Clean := by
  obtain ⟨n, at_, done⟩ := Option.bind_eq_some_iff.mp done
  split at done
  next => cases done
  next =>
    obtain ⟨m, -, done⟩ := Option.bind_eq_some_iff.mp done
    obtain rfl := Option.some.inj done
    exact clean.push k (decoded name)

theorem Clean.add_value_alias (clean : s.Clean) {fuel k das : Nat} {name source : Name}
    (done : s.add_value_alias fuel k das name source = some s') : s'.Clean := by
  obtain ⟨e, found, done⟩ := Option.bind_eq_some_iff.mp done
  split at done
  next => cases done
  next =>
    obtain ⟨n, at_, done⟩ := Option.bind_eq_some_iff.mp done
    split at done
    next => cases done
    next =>
      obtain rfl := Option.some.inj done
      exact clean.push k (clean_aliasOf (decoded name))

theorem Clean.copy (clean : s.Clean) {rhs : Nat} (done : s.copy rhs = some s') : s'.Clean := by
  obtain ⟨n, at_, done⟩ := Option.bind_eq_some_iff.mp done
  obtain ⟨⟨t, store⟩, copied, done⟩ := Option.bind_eq_some_iff.mp done
  obtain rfl := Option.some.inj done
  obtain ⟨⟨es, store'⟩, all, rest⟩ := Option.bind_eq_some_iff.mp copied
  obtain ⟨rfl, rfl⟩ := Prod.mk.inj (Option.some.inj rest)
  have new : CleanIn es := cleanIn_copy _ n.attr_map (clean.table at_) all
  have both : Clean ⟨s.live ++ [⟨⟨n.d_name, none, es⟩, s.store.next⟩], store'⟩ :=
    List.forall_mem_append.mpr ⟨clean, List.forall_mem_singleton.mpr new⟩
  exact both.settle

theorem Clean.assign (clean : s.Clean) {k rhs : Nat} (done : s.assign k rhs = some s') : s'.Clean := by
  rw [Attributes.assign] at done
  split at done
  next =>
    obtain rfl := Option.some.inj done
    exact clean
  next =>
    obtain ⟨n, at_, done⟩ := Option.bind_eq_some_iff.mp done
    obtain ⟨⟨es, store⟩, all, done⟩ := Option.bind_eq_some_iff.mp done
    obtain rfl := Option.some.inj done
    have emptied : (s.onTable k fun n => { n with attr_map := [] }).Clean := clean.onTable fun _ _ => trivial
    have new : CleanIn es := cleanIn_copy _ n.attr_map (emptied.table at_) all
    have assigned : ((s.onTable k fun n => { n with attr_map := [] }).onTable k fun _ => ⟨n.d_name, none, es⟩).Clean :=
      emptied.onTable fun _ _ => new
    exact Clean.settle (s := ⟨_, store⟩) assigned

theorem Clean.step {op : Op} (clean : s.Clean) (step : Step s op s') : s'.Clean := by
  cases step with
  | create => exact List.forall_mem_append.mpr ⟨clean, List.forall_mem_singleton.mpr trivial⟩
  | append_attr done => exact clean.append_attr done
  | append_container done => exact clean.append_container done
  | append_container_at done => exact clean.append_container_at done
  | add_container_alias done => exact clean.add_container_alias done
  | add_value_alias done => exact clean.add_value_alias done
  | del_attr done => exact clean.del_attr done
  | erase k => exact clean.onTable fun _ _ => trivial
  | copy done => exact clean.copy done
  | assign done => exact clean.assign done

/-- In every state that is reached all names are decoded. -/
theorem run_clean {ops : List Op} (run : Run Step ⟨[], ⟨[], 0, []⟩⟩ ops s) : s.Clean :=
  run.keeps (fun clean taken => clean.step taken) (List.forall_mem_nil _)

end Attributes

end Libdap.Dap2
