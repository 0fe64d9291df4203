import Libdap.Dap2.DdsNumbers
import Libdap.Dap2.DdsScan

/-! # A DDS that is printed and parsed

It comes back when no name is cut off, and none stands where the grammar has no place for a
keyword. The name of the dataset is not decoded.
-/

namespace Libdap.Dap2.Text

open Dap4 (Name www2id unhexstring)

/-! ## Names -/

/-- The word for a name is not cut off. -/
def Short (n : Name) : Prop := (id2www n).length < ID_MAX

instance (n : Name) : Decidable (Short n) := inferInstanceAs (Decidable (_ < _))

theorem www2id_self {s : Name} (plain : '%' ∉ s) : www2id s = s := by
  induction s with
  | nil => rfl
  | cons c cs ih =>
      obtain ⟨first, others⟩ := not_or.mp (mt List.mem_cons.mpr plain)
      rw [www2id_plain (Ne.symm first), ih others]

/-- Half an escape is not the character. -/
theorem unhexstring_half : ∀ val < 256, val ≠ 0 →
    unhexstring [hexDigit (val / 16)] ≠ [Char.ofNat val] ∧ '%' ∉ unhexstring [hexDigit (val / 16)] := by
  decide +kernel

/-- What is left of a name that is cut off is another one. -/
theorem decoded_take {n : Name} (bytes : Bytes n) (plain : '%' ∉ n) {k : Nat} (cut : k < (id2www n).length) :
    '%' ∉ www2id ((id2www n).take k) ∧ www2id ((id2www n).take k) ≠ n := by
  induction n generalizing k with
  | nil => exact absurd cut (Nat.not_lt_zero k)
  | cons c cs ih =>
      obtain ⟨⟨byte, some_⟩, others⟩ := List.forall_mem_cons.mp bytes
      obtain ⟨first, rest⟩ := not_or.mp (mt List.mem_cons.mpr plain)
      have ih {j : Nat} := ih (k := j) others rest
      rw [id2www] at cut ⊢
      by_cases allowed : c ∈ allowable
      · rw [if_pos allowed] at cut ⊢
        cases k with
        | zero => exact ⟨List.not_mem_nil, (List.cons_ne_nil c cs).symm⟩
        | succ j =>
            obtain ⟨none_, other⟩ := ih (Nat.lt_of_succ_lt_succ cut)
            rw [List.take_succ_cons, www2id_plain (Ne.symm first)]
            exact ⟨by simpa using ⟨first, none_⟩, fun same => other (List.cons.inj same).2⟩
      · rw [if_neg allowed, hexstring, List.cons_append, List.cons_append, List.cons_append, List.nil_append] at cut ⊢
        obtain ⟨half, none_⟩ := unhexstring_half c.toNat byte some_
        rw [Char.ofNat_toNat] at half
        rcases k with _ | _ | _ | j
        · exact ⟨List.not_mem_nil, (List.cons_ne_nil c cs).symm⟩
        · have none_ : '%' ∉ unhexstring [] := by decide
          exact ⟨none_, fun same => List.cons_ne_nil c cs (Eq.symm same)⟩
        · refine ⟨none_, fun same => half ?_⟩
          have short := Dap4.length_unhexstring [hexDigit (c.toNat / 16)]
          have same : unhexstring [hexDigit (c.toNat / 16)] = c :: cs := same
          rw [same] at short ⊢
          rw [List.eq_nil_of_length_eq_zero (Nat.le_zero.mp (Nat.le_of_succ_le_succ short))]
        · have hex := unhexstring_hexstring c.toNat byte some_
          rw [Char.ofNat_toNat] at hex
          obtain ⟨none_, other⟩ := ih (j := j) (by simpa using cut)
          rw [List.take_succ_cons, List.take_succ_cons, List.take_succ_cons, www2id_escape _ _ hex]
          exact ⟨by simpa using ⟨first, none_⟩, fun same => other (List.cons.inj same).2⟩

theorem decoded {n : Name} (name : IsName n) :
    '%' ∉ www2id (store_word (id2www n)) ∧ (www2id (store_word (id2www n)) = n ↔ Short n) := by
  obtain ⟨-, bytes, plain⟩ := name
  by_cases short : Short n
  · have whole : store_word (id2www n) = id2www n := List.take_of_length_le (Nat.le_sub_one_of_lt short)
    rw [whole, www2id_cancels bytes]
    exact ⟨plain, iff_of_true rfl short⟩
  · obtain ⟨none_, other⟩ := decoded_take bytes plain (k := ID_MAX - 1) (by rw [Short] at short; simp only [ID_MAX] at *; omega)
    exact ⟨none_, iff_of_false other short⟩

/-- A word without escapes is the word for itself only. -/
theorem id2www_eq_iff {w : Name} (plain : ∀ c ∈ w, c ∈ allowable) {n : Name} : id2www n = w ↔ n = w := by
  induction w generalizing n with
  | nil =>
      cases n with
      | nil => exact iff_of_true (by rw [id2www]) rfl
      | cons c cs => exact iff_of_false (id2www_ne_nil (List.cons_ne_nil c cs)) (List.cons_ne_nil c cs)
  | cons d ds ih =>
      obtain ⟨first, others⟩ := List.forall_mem_cons.mp plain
      cases n with
      | nil =>
          rw [id2www]
      | cons c cs =>
          rw [id2www]
          by_cases allowed : c ∈ allowable
          · rw [if_pos allowed, List.cons.injEq, List.cons.injEq, ih others]
          · rw [if_neg allowed]
            refine iff_of_false ?_ fun same => allowed ((List.cons.inj same).1 ▸ first)
            intro same
            rw [← (List.cons.inj same).1] at first
            revert first
            decide

theorem keywords_plain : ∀ k ∈ Keyword.all, ∀ w ∈ k.spellings, ∀ c ∈ w, c ∈ allowable := by
  have all : (Keyword.all.all fun k => k.spellings.all fun w => w.all fun c => decide (c ∈ allowable)) = true := by
    decide +kernel
  simp only [List.all_eq_true, decide_eq_true_eq] at all
  exact all

theorem ofWord_eq_none_iff (n : Name) : Keyword.ofWord (id2www n) = none ↔ ∀ k ∈ Keyword.all, n ∉ k.spellings := by
  rw [Keyword.ofWord, List.find?_eq_none]
  refine forall₂_congr fun k mem => ?_
  rw [not_iff_not, List.contains_iff_mem]
  constructor
  · intro spelled
    rwa [(id2www_eq_iff (keywords_plain k mem _ spelled)).mp rfl]
  · intro spelled
    rwa [(id2www_eq_iff (keywords_plain k mem _ spelled)).mpr rfl]

theorem spellings_apart : ∀ k ∈ Keyword.all, ∀ w ∈ k.spellings, Keyword.ofWord w = some k := by
  decide +kernel

theorem ofWord_eq_some_iff (n : Name) {k : Keyword} (mem : k ∈ Keyword.all) :
    Keyword.ofWord (id2www n) = some k ↔ n ∈ k.spellings := by
  constructor
  · intro found
    have spelled : id2www n ∈ k.spellings := by simpa using List.find?_some found
    rwa [(id2www_eq_iff (keywords_plain k mem _ spelled)).mp rfl]
  · intro spelled
    rw [(id2www_eq_iff (keywords_plain k mem _ spelled)).mpr rfl]
    exact spellings_apart k mem n spelled

/-! ## What comes back -/

/-- A dimension with a name that the grammar can read. -/
def Dimension.Readable (dim : Dimension) : Prop := dim.name ≠ [] → (∀ k ∈ Keyword.all, dim.name ∉ k.spellings) ∧ Short dim.name

structure Declarator.Readable (d : Declarator) : Prop where
  keyword : d.name ∉ Keyword.scan_dataset.spellings
  short : Short d.name
  dims : ∀ dim ∈ d.shape.getD [], dim.Readable

theorem receivedName_eq_some {n m : Name} (received : receivedName n = some m) :
    n ∉ Keyword.scan_dataset.spellings ∧ m = www2id (store_word (id2www n)) := by
  rw [receivedName] at received
  split at received
  · cases received
  · rename_i other
    exact ⟨fun spelled => other ((ofWord_eq_some_iff n (by decide)).mpr spelled), (Option.some.inj received).symm⟩

theorem Dimension.received_iff {dim : Dimension} (named : dim.Named) : dim.received = some dim ↔ dim.Readable := by
  obtain ⟨size, name⟩ := dim
  rw [received, Readable]
  by_cases empty : name = []
  · rw [if_pos empty]
    exact iff_of_true rfl fun some_ => absurd empty some_
  · rw [if_neg empty]
    have back := (decoded (named.2 empty)).2
    by_cases keyword : ∀ k ∈ Keyword.all, name ∉ k.spellings
    · rw [if_pos ((ofWord_eq_none_iff name).mpr keyword), Option.some.injEq, Dimension.mk.injEq, eq_self, true_and, back]
      exact ⟨fun short _ => ⟨keyword, short⟩, fun both => (both empty).2⟩
    · rw [if_neg fun other => keyword ((ofWord_eq_none_iff name).mp other)]
      exact iff_of_false (fun same => by cases same) fun both => keyword (both empty).1

theorem Dimension.receivedIn_iff {dims : List Dimension} (named : ∀ dim ∈ dims, dim.Named) :
    receivedIn dims = some dims ↔ ∀ dim ∈ dims, dim.Readable := by
  induction dims with
  | nil => exact iff_of_true rfl (List.forall_mem_nil _)
  | cons dim dims ih =>
      obtain ⟨first, others⟩ := List.forall_mem_cons.mp named
      rw [receivedIn, List.forall_mem_cons, ← received_iff first, ← ih others]
      constructor
      · intro both
        obtain ⟨dim', one, both⟩ := Option.bind_eq_some_iff.mp both
        obtain ⟨dims', rest, both⟩ := Option.bind_eq_some_iff.mp both
        obtain ⟨rfl, rfl⟩ := List.cons.inj (Option.some.inj both)
        exact ⟨one, rest⟩
      · rintro ⟨one, rest⟩
        rw [one, rest]
        rfl

theorem Declarator.received_iff {d : Declarator} (named : d.Named) :
    d.received = some d ↔ d.Readable ∧ d.shape ≠ some [] := by
  obtain ⟨none_, back⟩ := decoded named.1
  have dims := Dimension.receivedIn_iff named.2
  obtain ⟨name, shape⟩ := d
  constructor
  · intro same
    obtain ⟨m, first, same⟩ := Option.bind_eq_some_iff.mp same
    obtain ⟨dims', rest, same⟩ := Option.bind_eq_some_iff.mp same
    obtain ⟨keyword, rfl⟩ := receivedName_eq_some first
    have built := Option.some.inj same
    by_cases empty : dims' = []
    · rw [if_pos empty] at built
      obtain ⟨whole, rfl⟩ := Declarator.mk.inj built
      rw [empty] at rest
      exact ⟨⟨keyword, back.mp whole, dims.mp rest⟩, by nofun⟩
    · rw [if_neg empty] at built
      obtain ⟨whole, rfl⟩ := Declarator.mk.inj built
      rw [www2id_self none_] at whole
      refine ⟨⟨keyword, back.mp whole, dims.mp rest⟩, ?_⟩
      exact fun none_ => empty (Option.some.inj none_)
  · rintro ⟨readable, some_⟩
    have whole : www2id (store_word (id2www name)) = name := back.mpr readable.short
    have first : receivedName name = some name := by
      rw [receivedName, if_neg fun spelled => readable.keyword ((ofWord_eq_some_iff name (by decide)).mp spelled), whole]
    have again : www2id name = name := www2id_self named.1.2.2
    rw [received, first, Option.bind_eq_bind, Option.bind_some, dims.mpr readable.dims, Option.bind_eq_bind, Option.bind_some, again]
    cases shape with
    | none => rfl
    | some dims' =>
        have some_ : dims' ≠ [] := fun empty => some_ (congrArg some empty)
        exact congrArg some (if_neg some_)

namespace Variable

mutual

/-- Each declaration has names that can be read, and passes its own check. -/
def Readable : Variable → Prop
  | .simple type d => d.Readable ∧ check_semantics (.simple type d)
  | .ctor kind vars d => ReadableIn false vars ∧ d.Readable ∧ check_semantics (.ctor kind vars d)
  | .grid array maps d =>
    array.Readable ∧ array.isArray ∧ ReadableIn true maps ∧ d.Readable ∧ check_semantics (.grid array maps d)

/-- The variables, of which those in a Grid are arrays. -/
def ReadableIn (arrays : Bool) : List Variable → Prop
  | [] => True
  | v :: vs => v.Readable ∧ (arrays = true → v.isArray) ∧ ReadableIn arrays vs

end

theorem checked_eq_some_iff {v w : Variable} : v.checked = some w ↔ v = w ∧ v.check_semantics := by
  rw [checked]
  split
  · rename_i passes
    rw [Option.some.injEq, and_iff_left passes]
  · rename_i fails
    exact iff_of_false (fun same => by cases same) fun both => fails both.2

/-- An array that passes its check has dimensions. -/
theorem shape_ne_nil {v : Variable} (passes : v.check_semantics) : v.declarator.shape ≠ some [] := by
  intro empty
  have shape : v.shape = some [] := empty
  simp [check_semantics, shape] at passes

mutual

theorem received_iff (v : Variable) (named : v.Named) : v.received = some v ↔ v.Readable := by
  cases v with
  | simple type d =>
      rw [Named] at named
      rw [received, Readable]
      constructor
      · intro same
        obtain ⟨d', one, same⟩ := Option.bind_eq_some_iff.mp same
        obtain ⟨whole, passes⟩ := checked_eq_some_iff.mp same
        obtain ⟨-, rfl⟩ := Variable.simple.inj whole
        exact ⟨((Declarator.received_iff named).mp one).1, passes⟩
      · rintro ⟨readable, passes⟩
        rw [(Declarator.received_iff named).mpr ⟨readable, shape_ne_nil passes⟩]
        exact checked_eq_some_iff.mpr ⟨rfl, passes⟩
  | ctor kind vars d =>
      rw [Named] at named
      rw [received, Readable, ← receivedIn_iff false vars named.1]
      constructor
      · intro same
        obtain ⟨vars', members, same⟩ := Option.bind_eq_some_iff.mp same
        obtain ⟨d', one, same⟩ := Option.bind_eq_some_iff.mp same
        obtain ⟨whole, passes⟩ := checked_eq_some_iff.mp same
        obtain ⟨-, rfl, rfl⟩ := Variable.ctor.inj whole
        exact ⟨members, ((Declarator.received_iff named.2).mp one).1, passes⟩
      · rintro ⟨members, readable, passes⟩
        rw [members, (Declarator.received_iff named.2).mpr ⟨readable, shape_ne_nil passes⟩]
        exact checked_eq_some_iff.mpr ⟨rfl, passes⟩
  | grid array maps d =>
      rw [Named] at named
      rw [received, Readable, ← receivedIn_iff true maps named.2.1, ← received_iff array named.1]
      constructor
      · intro same
        obtain ⟨array', first, same⟩ := Option.bind_eq_some_iff.mp same
        split at same
        · rename_i isArray
          obtain ⟨maps', others, same⟩ := Option.bind_eq_some_iff.mp same
          obtain ⟨d', one, same⟩ := Option.bind_eq_some_iff.mp same
          obtain ⟨whole, passes⟩ := checked_eq_some_iff.mp same
          obtain ⟨rfl, rfl, rfl⟩ := Variable.grid.inj whole
          exact ⟨first, isArray, others, ((Declarator.received_iff named.2.2).mp one).1, passes⟩
        · cases same
      · rintro ⟨first, isArray, others, readable, passes⟩
        rw [first, Option.bind_eq_bind, Option.bind_some, if_pos isArray, others,
          (Declarator.received_iff named.2.2).mpr ⟨readable, shape_ne_nil passes⟩]
        exact checked_eq_some_iff.mpr ⟨rfl, passes⟩

theorem receivedIn_iff (arrays : Bool) (vs : List Variable) (named : NamedIn vs) :
    receivedIn arrays vs = some vs ↔ ReadableIn arrays vs := by
  cases vs with
  | nil =>
      rw [receivedIn, ReadableIn]
      exact iff_of_true rfl trivial
  | cons v vs =>
      rw [NamedIn] at named
      rw [receivedIn, ReadableIn, ← received_iff v named.1, ← receivedIn_iff arrays vs named.2]
      constructor
      · intro same
        obtain ⟨v', one, same⟩ := Option.bind_eq_some_iff.mp same
        split at same
        · rename_i allowed
          obtain ⟨vs', rest, same⟩ := Option.bind_eq_some_iff.mp same
          obtain ⟨rfl, rfl⟩ := List.cons.inj (Option.some.inj same)
          refine ⟨one, ?_, rest⟩
          rintro rfl
          exact allowed
        · cases same
      · rintro ⟨one, isArray, rest⟩
        have allowed : (!arrays || v.isArray) = true := by
          cases arrays with
          | false => rfl
          | true => exact isArray rfl
        rw [one, Option.bind_eq_bind, Option.bind_some, if_pos allowed, rest]
        rfl

end

end Variable

namespace State

mutual

theorem understands (v : Variable) (named : v.Named) : Understands v := by
  cases v with
  | simple type d =>
      rw [Variable.Named] at named
      exact understands_simple reads_showInt type fun dim mem => (named.2 dim mem).1
  | ctor kind vars d =>
      rw [Variable.Named] at named
      exact understands_ctor reads_showInt kind (understandsIn vars named.1) fun dim mem => (named.2.2 dim mem).1
  | grid array maps d =>
      rw [Variable.Named] at named
      exact understands_grid reads_showInt (understands array named.1) (understandsIn maps named.2.1)
        fun dim mem => (named.2.2.2 dim mem).1

theorem understandsIn (vs : List Variable) (named : Variable.NamedIn vs) : ∀ v ∈ vs, Understands v := by
  cases vs with
  | nil => exact List.forall_mem_nil _
  | cons v vs =>
      rw [Variable.NamedIn] at named
      exact List.forall_mem_cons.mpr ⟨understands v named.1, understandsIn vs named.2⟩

end

end State

/-- What the text of a DDS is parsed as. -/
theorem parse_print {dds : DDS} (named : dds.Named) : parse dds.print =
    (Variable.receivedIn false dds.vars).map fun vars => ⟨vars, store_word (id2www dds.d_name)⟩ := by
  have opens (ts : List Token) : State.start.run (.keyword .scan_dataset "Dataset".toList :: .sign '{' :: ts) =
      (State.ready [] [] [] [] false .nil).run ts := rfl
  have name (w : Name) : ∃ t, tokenOf w = t ∧ ∀ s : State, { s with expect := .datasetName }.step t =
      some { s with expect := .datasetEnd, d_name := store_word w } := by
    rw [tokenOf]
    cases Keyword.ofWord w with
    | none => exact ⟨_, rfl, fun _ => rfl⟩
    | some k => exact ⟨_, rfl, fun _ => rfl⟩
  obtain ⟨t, token, named_⟩ := name (id2www dds.d_name)
  have ends (vars : List Variable) (part : Part) :
      (State.ready [] vars [] [] false part).run (.sign '}' :: t :: [.sign ';']) =
        some ⟨.dataset, [], vars, store_word (id2www dds.d_name), [], none, part, false, true⟩ := by
    have closed : (State.ready [] vars [] [] false part).step (.sign '}') =
        some { State.ready [] vars [] [] false part with expect := .datasetName } := rfl
    rw [State.run_step closed, State.run_step (named_ _)]
    rfl
  rw [parse, scan_print named, parseTokens, DDS.tokens, opens, State.run_append,
    State.run_dataset (State.understandsIn dds.vars named.1), token]
  cases Variable.receivedIn false dds.vars with
  | none => rfl
  | some vars =>
      rw [Option.map_some, Option.bind_some, ends]
      rfl

theorem allowable_of_take {n : Name} (plain : '%' ∉ n) {k : Nat} (same : (id2www n).take k = n) : ∀ c ∈ n, c ∈ allowable := by
  induction n generalizing k with
  | nil => exact List.forall_mem_nil _
  | cons c cs ih =>
      obtain ⟨first, others⟩ := not_or.mp (mt List.mem_cons.mpr plain)
      cases k with
      | zero => cases same
      | succ k =>
          rw [id2www] at same
          by_cases allowed : c ∈ allowable
          · rw [if_pos allowed, List.take_succ_cons, List.cons.injEq, eq_self, true_and] at same
            exact List.forall_mem_cons.mpr ⟨allowed, ih others same⟩
          · rw [if_neg allowed] at same
            exact absurd (List.cons.inj same).1 first

/-- The name of a dataset is read without its escapes decoded. -/
theorem store_word_iff {n : Name} (plain : '%' ∉ n) :
    store_word (id2www n) = n ↔ (∀ c ∈ n, c ∈ allowable) ∧ n.length < ID_MAX := by
  constructor
  · intro same
    refine ⟨allowable_of_take plain same, ?_⟩
    have length := congrArg List.length same
    rw [store_word, List.length_take] at length
    simp only [ID_MAX] at *
    omega
  · rintro ⟨allowed, short⟩
    rw [(id2www_eq_iff allowed).mpr rfl]
    exact List.take_of_length_le (Nat.le_sub_one_of_lt short)

/-- When a DDS comes back from its text: when each declaration has names that can be read and passes its own check, and
    the name of the dataset needs no escapes and is not too long. -/
theorem parse_print_iff {dds : DDS} (named : dds.Named) : parse dds.print = some dds ↔
    Variable.ReadableIn false dds.vars ∧ (∀ c ∈ dds.d_name, c ∈ allowable) ∧ dds.d_name.length < ID_MAX := by
  rw [parse_print named, ← store_word_iff named.2.2.2, ← Variable.receivedIn_iff false dds.vars named.1]
  obtain ⟨vars, d_name⟩ := dds
  constructor
  · intro same
    obtain ⟨vars', received, same⟩ := Option.map_eq_some_iff.mp same
    obtain ⟨rfl, name⟩ := DDS.mk.inj same
    exact ⟨received, name⟩
  · rintro ⟨received, name⟩
    rw [received, Option.map_some, name]

/-- A DDS with an array in a Structure. -/
private def stations (variable_ : Name) : DDS :=
  ⟨[.ctor .dods_structure_c [.simple .dods_byte_c ⟨variable_, some [⟨3, "x y".toList⟩]⟩] ⟨['s'], none⟩], ['d']⟩

private theorem stations_named {variable_ : Name} (name : IsName variable_) : (stations variable_).Named := by
  have dataset : IsName ['d'] := by decide
  have container : IsName ['s'] := by decide
  have dimension : Dimension.Named ⟨3, "x y".toList⟩ := ⟨by decide, fun _ => by decide⟩
  refine ⟨?_, dataset⟩
  simp only [stations, Variable.NamedIn, Variable.Named, Declarator.Named, Option.getD_some, Option.getD_none,
    List.forall_mem_singleton, and_true]
  exact ⟨⟨name, dimension⟩, container, List.forall_mem_nil _⟩

/-- The name of a type is read, -/
theorem stations_read : parse (stations "Byte".toList).print = some (stations "Byte".toList) := by
  refine (parse_print_iff (stations_named (by decide))).mpr ⟨?_, List.forall_mem_singleton.mpr (by decide), by decide⟩
  simp only [stations, Variable.ReadableIn, Variable.Readable, and_true]
  refine ⟨⟨⟨⟨⟨by decide, by decide, ?_⟩, by decide⟩, nofun⟩, ⟨by decide, by decide, List.forall_mem_nil _⟩, by decide⟩, nofun⟩
  intro dim mem
  rw [Option.getD_some, List.mem_singleton] at mem
  subst mem
  exact fun _ => ⟨by decide, by decide⟩

/-- and the word that the text begins with is not. -/
theorem stations_not_read : ¬∀ dds : DDS, dds.Named → dds.check_semantics = true → parse dds.print = some dds := by
  intro all
  have same := all (stations "Dataset".toList) (stations_named (by decide)) (by decide)
  have error : (parse (stations "Dataset".toList).print).isNone = true := by decide +kernel
  rw [same] at error
  cases error

end Libdap.Dap2.Text
