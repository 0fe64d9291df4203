import Libdap.Http.IndexFields
import Libdap.Http.GarbageCollection
import Mathlib.Algebra.BigOperators.Group.List.Basic

/-! # The index and back

What a table that is made from an index holds. The lines of the index are read as they were
written where each entry has its own line and each string of it is a word of the line.
-/

namespace Libdap.Http

open Ints Dap4 Program

namespace CacheEntry

/-- What the index keeps of an entry. -/
def persisted (e : CacheEntry) : CacheEntry :=
  { e with date := -1, age := -1, max_age := -1, no_cache := false, readers := 0 }

/-- The fields hold what their types can. -/
structure Typed (e : CacheEntry) : Prop where
  hash : FitsI32 e.hash
  hits : FitsI32 e.hits
  lm : FitsLong e.lm
  expires : FitsLong e.expires
  size : e.size < 2 ^ 64
  freshness_lifetime : FitsLong e.freshness_lifetime
  response_time : FitsLong e.response_time
  corrected_initial_age : FitsLong e.corrected_initial_age

/-- An empty tag has a word of its own, and no other tag is that word. -/
def TagReadable (tag : Text) : Prop := tag = [] ∨ (IsWord tag ∧ tag ≠ CACHE_EMPTY_ETAG)

instance (tag : Text) : Decidable (TagReadable tag) := inferInstanceAs (Decidable (_ ∨ _))

/-- The line of the entry can be read back. -/
structure Readable (e : CacheEntry) : Prop where
  url : IsWord e.url
  cachename : IsWord e.cachename
  etag : TagReadable e.etag
  length : (indexLine e).length ≤ 1023

end CacheEntry

theorem isWord_cstr {text : Text} (isWord : IsWord text) : cstr text = text :=
  cstr_eq_self fun null => (isWord.2 _ null).2 rfl

theorem mem_showInt {n : Int} {ch : Char} (mem : ch ∈ showInt n) : ch = '-' ∨ ch.isDigit = true := by
  have digits : ∀ ch ∈ Nat.toDigits 10 n.natAbs, ch.isDigit = true :=
    fun ch mem => Nat.isDigit_of_mem_toDigits (by decide) (by decide) mem
  unfold showInt at mem
  split at mem
  · cases mem with
    | head => exact .inl rfl
    | tail _ mem => exact .inr (digits ch mem)
  · exact .inr (digits ch mem)

/-- The strings of an entry and a blank behind each, and what comes behind them: the numbers and flags. -/
def tagText (e : CacheEntry) : Text := if e.etag = [] then CACHE_EMPTY_ETAG else cstr e.etag

def numbersText (e : CacheEntry) : Text :=
  showInt e.lm ++ ' ' :: (showInt e.expires ++ ' ' :: (showInt (i64 e.size) ++ ' ' :: (showFlag e.range ++
    ' ' :: (showInt e.hash ++ ' ' :: (showInt e.hits ++ ' ' :: (showInt e.freshness_lifetime ++
    ' ' :: (showInt e.response_time ++ ' ' :: (showInt e.corrected_initial_age ++
    ' ' :: (showFlag e.must_revalidate ++ ['\r'])))))))))

theorem newline_behind (a b c d f g h i j k : Text) :
    (a ++ ' ' :: (b ++ ' ' :: (c ++ ' ' :: (d ++ ' ' :: (f ++ ' ' :: (g ++ ' ' :: (h ++ ' ' :: (i ++ ' ' :: (j ++
      ' ' :: (k ++ ['\r'])))))))))) ++ ['\n'] =
    a ++ ' ' :: (b ++ ' ' :: (c ++ ' ' :: (d ++ ' ' :: (f ++ ' ' :: (g ++ ' ' :: (h ++ ' ' :: (i ++ ' ' :: (j ++
      ' ' :: (k ++ ['\r', '\n']))))))))) := by
  simp only [List.append_assoc, List.cons_append, List.nil_append]

theorem indexLine_eq (e : CacheEntry) : indexLine e =
    cstr e.url ++ ' ' :: (cstr e.cachename ++ ' ' :: (tagText e ++ ' ' :: (numbersText e ++ ['\n']))) := by
  rw [numbersText, newline_behind]
  rfl

/-- A character that no number has, and is not a mark of a line, is not in it. -/
theorem notMem_numbersText {e : CacheEntry} {ch : Char} (other : ch.isDigit = false) (sign : ch ≠ '-') (blank : ch ≠ ' ')
    (back : ch ≠ '\r') : ch ∉ numbersText e := by
  have number : ∀ n, ch ∉ showInt n := by
    intro n mem
    rcases mem_showInt mem with minus | digit
    · exact sign minus
    · rw [other] at digit
      cases digit
  have flag : ∀ b, ch ∉ showFlag b := by
    intro b mem
    have digit : ch.isDigit = true := by
      cases b <;> (rw [List.mem_singleton.mp mem]; rfl)
    rw [other] at digit
    cases digit
  simp only [numbersText, List.mem_append, List.mem_cons, List.not_mem_nil, number, flag, blank, back, or_self,
    not_false_eq_true]

theorem noNull_indexLine (e : CacheEntry) : cstr (indexLine e) = indexLine e := by
  apply cstr_eq_self
  have tag : '\x00' ∉ tagText e := by
    unfold tagText
    split
    · decide
    · exact null_notMem_cstr _
  have numbers := @notMem_numbersText e '\x00' (by decide) (by decide) (by decide) (by decide)
  rw [indexLine_eq]
  simp only [List.mem_append, List.mem_cons, List.not_mem_nil, null_notMem_cstr, tag, numbers, Char.reduceEq, or_self,
    not_false_eq_true]

/-- A line is read field by field. -/
theorem parse_of_reads {line url cachename tag : Text} {lm expires hash hits freshness_lifetime response_time
    corrected_initial_age : Int} {size : Nat} {range must_revalidate : Bool}
    {i₁ i₂ i₃ i₄ i₅ i₆ i₇ i₈ i₉ i₁₀ i₁₁ i₁₂ i₁₃ : Iss}
    (r₁ : Iss.word [] ⟨cstr line, false⟩ = (url, i₁)) (r₂ : i₁.word [] = (cachename, i₂)) (r₃ : i₂.word [] = (tag, i₃))
    (r₄ : i₃.long (-1) = (lm, i₄)) (r₅ : i₄.long (-1) = (expires, i₅)) (r₆ : i₅.unsignedLong 0 = (size, i₆))
    (r₇ : i₆.flag false = (range, i₇)) (r₈ : i₇.int (-1) = (hash, i₈)) (r₉ : i₈.int 0 = (hits, i₉))
    (r₁₀ : i₉.long 0 = (freshness_lifetime, i₁₀)) (r₁₁ : i₁₀.long 0 = (response_time, i₁₁))
    (r₁₂ : i₁₁.long 0 = (corrected_initial_age, i₁₂)) (r₁₃ : i₁₂.flag false = (must_revalidate, i₁₃)) :
    cache_index_parse_line line = { CacheEntry.empty with
      url, cachename, etag := if tag = CACHE_EMPTY_ETAG then [] else tag, lm, expires, size, range, hash, hits,
      freshness_lifetime, response_time, corrected_initial_age, must_revalidate } := by
  simp only [cache_index_parse_line, CacheEntry.empty, r₁, r₂, r₃, r₄, r₅, r₆, r₇, r₈, r₉, r₁₀, r₁₁, r₁₂, r₁₃]

theorem parse_indexLine {e : CacheEntry} (typed : e.Typed) (readable : e.Readable) :
    cache_index_parse_line (indexLine e) = e.persisted := by
  have start : ∀ w rest : Text, IsWord w → (w ++ ' ' :: rest).dropWhile isspace = w ++ ' ' :: rest := by
    intro w rest isWord
    obtain ⟨c, cs, same⟩ := List.exists_cons_of_ne_nil isWord.1
    rw [same, List.cons_append]
    exact Iss.dropWhile_of_first (isWord.2 c (same ▸ List.mem_cons_self)).1
  have next : ∀ w rest : Text, IsWord w → (' ' :: (w ++ ' ' :: rest)).dropWhile isspace = w ++ ' ' :: rest := by
    intro w rest isWord
    rw [List.dropWhile_cons]
    exact start w rest isWord
  have isWord : IsWord (tagText e) := by
    unfold tagText
    split
    · decide
    · rename_i filled
      have tag := readable.etag.resolve_left filled
      rw [isWord_cstr tag.1]
      exact tag.1
  have tag : (if tagText e = CACHE_EMPTY_ETAG then [] else tagText e) = e.etag := by
    unfold tagText
    split
    · rename_i empty
      rw [if_pos rfl, empty]
    · rename_i filled
      have tag := readable.etag.resolve_left filled
      rw [isWord_cstr tag.1, if_neg tag.2]
  have text : cstr (indexLine e) =
      e.url ++ ' ' :: (e.cachename ++ ' ' :: (tagText e ++ ' ' :: (numbersText e ++ ['\n']))) := by
    rw [noNull_indexLine, indexLine_eq, isWord_cstr readable.url, isWord_cstr readable.cachename]
  rw [numbersText, newline_behind] at text
  have blank : Char.isDigit ' ' = false := rfl
  rw [parse_of_reads (by rw [text]; exact Iss.word_read readable.url rfl (start _ _ readable.url))
    (Iss.word_read readable.cachename rfl (next _ _ readable.cachename)) (Iss.word_read isWord rfl (next _ _ isWord))
    (Iss.long_read blank typed.lm) (Iss.long_read blank typed.expires) (Iss.unsignedLong_read blank typed.size)
    (Iss.flag_read blank) (Iss.int_read blank typed.hash) (Iss.int_read blank typed.hits)
    (Iss.long_read blank typed.freshness_lifetime) (Iss.long_read blank typed.response_time)
    (Iss.long_read blank typed.corrected_initial_age) (Iss.flag_read (by rfl : Char.isDigit '\r' = false)), tag]
  rfl

theorem hasWords_indexLine (e : CacheEntry) : HasWords 3 (indexLine e) := by
  have number : ∀ {k : Nat} (n : Int) {rest : Text}, HasWords k rest → HasWords (k + 1) (showInt n ++ ' ' :: rest) := by
    intro k n rest words
    obtain ⟨⟨c, cs, shown, first⟩, _⟩ := Iss.showInt_cases n
    rw [shown]
    exact words.cons first
  have numbers : HasWords 3 (numbersText e ++ ['\n']) := by
    rw [numbersText, newline_behind]
    exact number _ (number _ (number _ trivial))
  rw [indexLine_eq]
  exact ((numbers.behind _).behind _).behind _

/-- Where there is a word it is read, whatever it is. -/
theorem HasWords.read {n : Nat} {text : Text} (words : HasWords (n + 1) text) (noNull : '\x00' ∉ text) :
    ∃ w rest, (∀ old, Iss.word old ⟨text, false⟩ = (w, ⟨rest, false⟩)) ∧ IsWord w ∧ HasWords n rest ∧
      '\x00' ∉ rest := by
  obtain ⟨ch, rest, start, more⟩ := words
  have inside : ∀ x ∈ ch :: rest, x ∈ text := by
    intro x mem
    rw [← start] at mem
    exact (List.dropWhile_sublist _).mem mem
  refine ⟨(ch :: rest).takeWhile fun ch => !isspace ch, _, ?_, ⟨?_, ?_⟩, more, ?_⟩
  · intro old
    simp only [Iss.word, start, Bool.false_eq_true, ↓reduceIte]
  · have first : isspace ch = false := by
      have kept := List.head?_dropWhile_not isspace text
      rw [start] at kept
      simpa using kept
    rw [List.takeWhile_cons, first]
    exact List.cons_ne_nil _ _
  · intro x mem
    have plain := List.mem_takeWhile_imp mem
    rw [Bool.not_eq_true'] at plain
    refine ⟨plain, fun same => noNull (same ▸ inside x ((List.takeWhile_sublist _).mem mem))⟩
  · exact fun mem => noNull (inside _ ((List.dropWhile_sublist _).mem mem))

/-- The strings of what is read are words. -/
theorem parsed_words {line : Text} (words : HasWords 3 (cstr line)) :
    IsWord (cache_index_parse_line line).url ∧ IsWord (cache_index_parse_line line).cachename ∧
      CacheEntry.TagReadable (cache_index_parse_line line).etag := by
  obtain ⟨url, i₁, r₁, isUrl, words, noNull⟩ := words.read (null_notMem_cstr line)
  obtain ⟨cachename, i₂, r₂, isName, words, noNull⟩ := words.read noNull
  obtain ⟨tag, i₃, r₃, isTag, _, _⟩ := words.read noNull
  rw [parse_of_reads (r₁ []) (r₂ []) (r₃ []) Prod.mk.eta.symm Prod.mk.eta.symm Prod.mk.eta.symm Prod.mk.eta.symm
    Prod.mk.eta.symm Prod.mk.eta.symm Prod.mk.eta.symm Prod.mk.eta.symm Prod.mk.eta.symm Prod.mk.eta.symm]
  refine ⟨isUrl, isName, ?_⟩
  by_cases empty : tag = CACHE_EMPTY_ETAG
  · exact .inl (if_pos empty)
  · exact .inr (by simp only [empty, ↓reduceIte]; exact ⟨isTag, empty⟩)

/-- Entries are added to the table one by one. -/
def addAll (es : List CacheEntry) : Act Unit :=
  forM es fun e => do
    let p ← newEntry e
    add_entry_to_cache_table p

/-- The entries of the table. -/
def Cache.entries (s : Cache) : List CacheEntry := s.residents.map s.heap

theorem residents_eq (s : Cache) : s.residents = residentsOf s.cache_table := rfl

/-- No entry is where the next one will be. -/
def Cache.Fresh (s : Cache) : Prop := ∀ p ∈ s.residents, p < s.next

def HasSlot (e : CacheEntry) : Prop := 0 ≤ e.hash ∧ e.hash ≤ (CACHE_TABLE_SIZE : Int) - 1

/-- What adding entries makes of a table. -/
structure AddedTo (s : Cache) (es : List CacheEntry) (s' : Cache) : Prop where
  fresh : s'.Fresh
  entries : s'.entries.Perm (es ++ s.entries)
  size : s'.current_size = u64 (s.current_size + (es.map fun e => entry_disk_space (i32 e.size) s.block_size).sum)
  block : s'.block_size = s.block_size

theorem add_run {s : Cache} (fresh : s.Fresh) (e : CacheEntry) :
    (HasSlot e ∧ ∃ s', (newEntry e >>= add_entry_to_cache_table).run s = .done () s' ∧ AddedTo s [e] s') ∨
      (¬HasSlot e ∧ ∃ message s', (newEntry e >>= add_entry_to_cache_table).run s = .threw message s') := by
  obtain ⟨locked, made⟩ : ∃ locked, (newEntry e).run s =
      .done s.next { s with next := s.next + 1, heap := Function.update s.heap s.next e, locked := locked } := ⟨_, rfl⟩
  have here : (Function.update s.heap s.next e) s.next = e := Function.update_self ..
  rw [bind_run made, add_entry_to_cache_table, entryAt, read_bind]
  simp only [here]
  by_cases outside : (CACHE_TABLE_SIZE : Int) - 1 < e.hash ∨ e.hash < 0
  · refine .inr ⟨fun slot => ?_, "Hash value too large!", _, by rw [if_pos outside]; rfl⟩
    unfold HasSlot at slot
    omega
  · have slot : HasSlot e := by
      unfold HasSlot
      omega
    have lt : e.hash.toNat < CACHE_TABLE_SIZE := by
      unfold HasSlot at slot
      omega
    rw [if_neg outside]
    refine .inl ⟨slot, { s with
      next := s.next + 1
      heap := Function.update s.heap s.next e
      locked := locked
      cache_table := Function.update s.cache_table e.hash.toNat (s.cache_table e.hash.toNat ++ [some s.next])
      current_size := u64 (s.current_size + entry_disk_space (i32 e.size) s.block_size)
      new_entries := s.new_entries + 1 }, rfl, ?_⟩
    have pushed := @residentsOf_push s.cache_table e.hash.toNat s.next lt
    refine ⟨fun p mem => ?_, ?_, ?_, rfl⟩
    · rw [residents_eq] at mem
      change p < s.next + 1
      rcases List.mem_cons.mp (pushed.mem_iff.mp mem) with same | before
      · rw [same]
        exact Nat.lt_succ_self s.next
      · exact Nat.lt_succ_of_lt (fresh p before)
    · have others : (residentsOf s.cache_table).map (Function.update s.heap s.next e) = s.entries := by
        rw [Cache.entries, residents_eq]
        apply List.map_congr_left
        intro p mem
        exact Function.update_of_ne (Nat.ne_of_lt (fresh p mem)) ..
      have all := pushed.map (Function.update s.heap s.next e)
      rw [List.map_cons, others, here] at all
      rw [Cache.entries, residents_eq, List.singleton_append]
      exact all
    · simp only [List.map_cons, List.map_nil, List.sum_singleton]

theorem AddedTo.trans {s s' s'' : Cache} {es es' : List CacheEntry} (first : AddedTo s es s') (second : AddedTo s' es' s'') :
    AddedTo s (es ++ es') s'' := by
  refine ⟨second.fresh, ?_, ?_, second.block.trans first.block⟩
  · refine second.entries.trans ((first.entries.append_left es').trans ?_)
    rw [← List.append_assoc]
    exact List.perm_append_comm.append_right _
  · rw [second.size, first.size, first.block, List.map_append, List.sum_append]
    unfold u64
    omega

theorem addAll_run {s : Cache} (fresh : s.Fresh) (small : s.current_size < 2 ^ 64) (es : List CacheEntry) :
    ((∀ e ∈ es, HasSlot e) ∧ ∃ s', (addAll es).run s = .done () s' ∧ AddedTo s es s') ∨
      ((∃ e ∈ es, ¬HasSlot e) ∧ ∃ message s', (addAll es).run s = .threw message s') := by
  induction es generalizing s with
  | nil =>
    have entries : s.entries.Perm ([] ++ s.entries) := by rw [List.nil_append]
    refine .inl ⟨fun e mem => absurd mem List.not_mem_nil, s, rfl, fresh, entries, ?_, rfl⟩
    rw [List.map_nil, List.sum_nil]
    unfold u64
    omega
  | cons e es ih =>
    rw [addAll, List.forM_cons]
    rcases add_run fresh e with ⟨slot, s₁, run, added⟩ | ⟨noSlot, message, s₁, run⟩
    · have small₁ : s₁.current_size < 2 ^ 64 := by
        rw [added.size]
        unfold u64
        omega
      rw [bind_run run]
      rcases ih added.fresh small₁ with ⟨slots, s₂, more, later⟩ | ⟨⟨e', mem, noSlot⟩, threw⟩
      · refine .inl ⟨fun e' mem => ?_, s₂, more, added.trans later⟩
        cases mem with
        | head => exact slot
        | tail _ mem => exact slots e' mem
      · exact .inr ⟨⟨e', List.mem_cons_of_mem _ mem, noSlot⟩, threw⟩
    · exact .inr ⟨⟨e, List.mem_cons_self, noSlot⟩, message, s₁, bind_threw run⟩

/-- The index is written, and a table is made that reads it. -/
def reload : Act Bool := do
  cache_index_write .written
  write Cache.emptied
  cache_index_read

theorem emptied_residents (s : Cache) : s.emptied.residents = [] := by
  rw [residents_eq]
  exact List.flatMap_eq_nil_iff.mpr fun _ _ => rfl

theorem emptied_fresh (s : Cache) : s.emptied.Fresh := by
  intro p mem
  rw [emptied_residents] at mem
  cases mem

theorem emptied_entries (s : Cache) : s.emptied.entries = [] := by
  rw [Cache.entries, emptied_residents, List.map_nil]

theorem readIndexLines_eq (lines : List Text) :
    (forM lines readIndexLine : Act Unit) = addAll (lines.map cache_index_parse_line) := by
  induction lines with
  | nil => rfl
  | cons line lines ih =>
    rw [List.forM_cons, ih, List.map_cons, addAll, addAll, List.forM_cons]
    rfl

theorem indexText_eq (s : Cache) : s.indexText = s.entries.flatMap indexLine := by
  rw [Cache.indexText, Cache.entries, List.flatMap_map]

/-- A table with the entries that the lines are read as. -/
theorem reload_run (s : Cache) :
    (∃ s', reload.run s = .done true s' ∧
        (∀ e ∈ (fgetsLines [] (s.entries.flatMap indexLine)).map cache_index_parse_line, HasSlot e) ∧
        AddedTo s.emptied ((fgetsLines [] (s.entries.flatMap indexLine)).map cache_index_parse_line) s') ∨
      ((∃ e ∈ (fgetsLines [] (s.entries.flatMap indexLine)).map cache_index_parse_line, ¬HasSlot e) ∧
        ∃ message s', reload.run s = .threw message s') := by
  have written : ∀ text, s.indexText = text → ∃ w, reload.run s = (do
      forM (fgetsLines [] text) readIndexLine
      write fun s => { s with new_entries := 0 }
      return true : Act Bool).run w ∧ w = { s.emptied with index := some text } := by
    intro text is
    refine ⟨_, ?_, rfl⟩
    have wrote : (cache_index_write .written).run s = .done () { s with index := some text, new_entries := 0 } := by
      rw [← is]
      rfl
    rw [reload, bind_run wrote]
    rfl
  obtain ⟨w, written, same⟩ := written s.indexText rfl
  have fresh : w.Fresh := same ▸ emptied_fresh s
  have small : w.current_size < 2 ^ 64 := by
    rw [same]
    exact Nat.two_pow_pos 64
  rw [written, readIndexLines_eq, indexText_eq]
  rcases addAll_run fresh small ((fgetsLines [] (s.entries.flatMap indexLine)).map cache_index_parse_line) with
    ⟨slots, s', run, added⟩ | ⟨noSlot, message, s', run⟩
  · rw [bind_run run]
    refine .inl ⟨{ s' with new_entries := 0 }, rfl, slots, added.fresh, ?_, ?_, ?_⟩
    · rw [same] at added
      exact added.entries
    · rw [same] at added
      exact added.size
    · rw [same] at added
      exact added.block
  · exact .inr ⟨noSlot, message, s', bind_threw run⟩

/-- What a line is without its newline. -/
def indexBody (e : CacheEntry) : Text :=
  cstr e.url ++ ' ' :: (cstr e.cachename ++ ' ' :: (tagText e ++ ' ' :: numbersText e))

theorem indexLine_body (e : CacheEntry) : indexLine e = indexBody e ++ ['\n'] := by
  rw [indexLine_eq, indexBody]
  simp only [List.append_assoc, List.cons_append]

theorem indexLines_eq (es : List CacheEntry) :
    fgetsLines [] (es.flatMap indexLine) = es.flatMap fun e => fgetsLines [] (indexLine e) := by
  have body : indexLine = fun e => indexBody e ++ ['\n'] := funext indexLine_body
  rw [body]
  exact fgetsLines_flatMap indexBody es

/-- A readable line is one line. -/
theorem fgetsLines_indexLine {e : CacheEntry} (readable : e.Readable) : fgetsLines [] (indexLine e) = [indexLine e] := by
  have isWord : ∀ w, IsWord w → '\n' ∉ w := by
    intro w isWord mem
    exact absurd (isWord.2 _ mem).1 (by decide)
  have tag : '\n' ∉ tagText e := by
    unfold tagText
    split
    · decide
    · rename_i filled
      have tag := readable.etag.resolve_left filled
      rw [isWord_cstr tag.1]
      exact isWord _ tag.1
  have numbers := @notMem_numbersText e '\n' (by decide) (by decide) (by decide) (by decide)
  have newline : '\n' ∉ indexBody e := by
    rw [indexBody, isWord_cstr readable.url, isWord_cstr readable.cachename]
    simp only [List.mem_append, List.mem_cons, isWord _ readable.url, isWord _ readable.cachename, tag, numbers,
      Char.reduceEq, or_self, not_false_eq_true]
  have short := readable.length
  rw [indexLine_body] at short ⊢
  apply fgetsLines_eq newline
  rw [List.length_append, List.length_singleton] at short
  rw [List.length_nil]
  omega

/-- Where every line is read as one its entry is in what was read, and what was read are words. -/
theorem readable_of_read {es : List CacheEntry}
    (read : ((fgetsLines [] (es.flatMap indexLine)).map cache_index_parse_line).Perm (es.map CacheEntry.persisted)) :
    ∀ e ∈ es, e.Readable := by
  have filled : ∀ e, fgetsLines [] (indexLine e) ≠ [] := fun e => indexLine_body e ▸ fgetsLines_ne_nil [] _
  have count := read.length_eq
  rw [List.length_map, List.length_map, indexLines_eq] at count
  have one := length_eq_one_of_flatMap filled (Nat.le_of_eq count)
  have whole : ∀ e ∈ es, fgetsLines [] (indexLine e) = [indexLine e] := by
    intro e mem
    obtain ⟨line, single⟩ := List.length_eq_one_iff.mp (one e mem)
    have same := flatten_fgetsLines [] (indexLine e)
    rw [single, List.flatten_cons, List.flatten_nil, List.append_nil, List.nil_append] at same
    rw [single, same]
  have lines : fgetsLines [] (es.flatMap indexLine) = es.map indexLine := by
    rw [indexLines_eq, List.flatMap_congr whole, ← List.map_eq_flatMap]
  intro e mem
  have there : e.persisted ∈ (es.map indexLine).map cache_index_parse_line :=
    lines ▸ read.mem_iff.mpr (List.mem_map_of_mem mem)
  obtain ⟨line, isLine, parsed⟩ := List.mem_map.mp there
  obtain ⟨e', _, rfl⟩ := List.mem_map.mp isLine
  have words := parsed_words ((noNull_indexLine e').symm ▸ hasWords_indexLine e')
  rw [parsed] at words
  refine ⟨words.1, words.2.1, words.2.2, ?_⟩
  exact length_of_mem_fgetsLines (Nat.zero_le _) (whole e mem ▸ List.mem_singleton_self _)

theorem read_of_readable {es : List CacheEntry} (typed : ∀ e ∈ es, e.Typed) (readable : ∀ e ∈ es, e.Readable) :
    (fgetsLines [] (es.flatMap indexLine)).map cache_index_parse_line = es.map CacheEntry.persisted := by
  rw [indexLines_eq, List.flatMap_congr fun e mem => fgetsLines_indexLine (readable e mem), ← List.map_eq_flatMap,
    List.map_map]
  apply List.map_congr_left
  intro e mem
  exact parse_indexLine (typed e mem) (readable e mem)

/-- What a table is read back as was readable. -/
theorem readable_of_reload {s s' : Cache} {es : List CacheEntry} (same : s.entries.Perm es)
    (run : reload.run s = .done true s') (entries : s'.entries.Perm (es.map CacheEntry.persisted)) :
    ∀ e ∈ es, e.Readable := by
  rcases reload_run s with ⟨s'', run', _, reread⟩ | ⟨_, _, _, threw⟩
  · rw [run] at run'
    cases run'
    have all := reread.entries
    rw [emptied_entries, List.append_nil] at all
    have read := readable_of_read (all.symm.trans (entries.trans (same.symm.map _)))
    exact fun e mem => read e (same.mem_iff.mpr mem)
  · rw [run] at threw
    cases threw

theorem addAll_emptied {s₀ s : Cache} {es : List CacheEntry} (made : (addAll es).run s₀.emptied = .done () s) :
    (∀ e ∈ es, HasSlot e) ∧ AddedTo s₀.emptied es s ∧ s.entries.Perm es := by
  rcases addAll_run (emptied_fresh s₀) (Nat.two_pow_pos 64) es with ⟨slots, s', run, added⟩ | ⟨_, _, _, threw⟩
  · rw [made] at run
    cases run
    have all := added.entries
    rw [emptied_entries, List.append_nil] at all
    exact ⟨slots, added, all⟩
  · rw [made] at threw
    cases threw

/-- A table is read back from its index exactly if each of its entries has a line that can be read. -/
theorem index_round_trip_iff {s₀ s : Cache} {entries : List CacheEntry}
    (made : (addAll entries).run s₀.emptied = .done () s) (typed : ∀ e ∈ entries, e.Typed) :
    (∃ s', reload.run s = .done true s' ∧ s'.entries.Perm (entries.map CacheEntry.persisted) ∧
        s'.current_size = s.current_size) ↔
      ∀ e ∈ entries, e.Readable := by
  obtain ⟨slots, added, same⟩ := addAll_emptied made
  constructor
  · rintro ⟨s', run, entries', _⟩
    exact readable_of_reload same run entries'
  · intro readable
    have lines := read_of_readable (fun e mem => typed e (same.mem_iff.mp mem))
      (fun e mem => readable e (same.mem_iff.mp mem))
    rcases reload_run s with ⟨s', run, _, reread⟩ | ⟨⟨e, mem, noSlot⟩, _⟩
    · rw [lines] at reread
      have all := reread.entries
      rw [emptied_entries, List.append_nil] at all
      refine ⟨s', run, all.trans (same.map _), ?_⟩
      have block : s.emptied.block_size = s₀.emptied.block_size := added.block
      have total := (same.map fun e : CacheEntry => entry_disk_space (i32 e.size) s₀.emptied.block_size).sum_eq
      rw [reread.size, added.size, block, ← total, List.map_map]
      rfl
    · rw [lines] at mem
      obtain ⟨e', mem', rfl⟩ := List.mem_map.mp mem
      exact absurd (slots e' (same.mem_iff.mp mem')) noSlot

/-- An entry for a URL, which is in a file of the cache. -/
def storedEntry (url : String) : CacheEntry := { CacheEntry.ofUrl url.toList with cachename := "/cache/1/dods".toList }

theorem plain_url_reloaded : ∃ s, (addAll [storedEntry "http://a/b"]).run Cache.nearlyFull.emptied = .done () s ∧
    ∃ s', reload.run s = .done true s' ∧
      s'.entries.Perm ([storedEntry "http://a/b"].map CacheEntry.persisted) ∧ s'.current_size = s.current_size := by
  have typed : (storedEntry "http://a/b").Typed :=
    ⟨by decide, by decide, ⟨by decide, by decide⟩, ⟨by decide, by decide⟩, by decide, ⟨by decide, by decide⟩,
      ⟨by decide, by decide⟩, ⟨by decide, by decide⟩⟩
  have readable : (storedEntry "http://a/b").Readable := ⟨by decide, by decide, by decide, by decide⟩
  obtain ⟨s, made⟩ : ∃ s, (addAll [storedEntry "http://a/b"]).run Cache.nearlyFull.emptied = .done () s := ⟨_, rfl⟩
  refine ⟨s, made, (index_round_trip_iff made fun e mem => ?_).mpr fun e mem => ?_⟩
  · rwa [List.mem_singleton.mp mem]
  · rwa [List.mem_singleton.mp mem]

/-- A URL with a blank is two words. -/
theorem blank_in_url_lost : ∃ s, (addAll [storedEntry "http://a b"]).run Cache.nearlyFull.emptied = .done () s ∧
    ¬∃ s', reload.run s = .done true s' ∧
      s'.entries.Perm ([storedEntry "http://a b"].map CacheEntry.persisted) ∧ s'.current_size = s.current_size := by
  obtain ⟨s, made⟩ : ∃ s, (addAll [storedEntry "http://a b"]).run Cache.nearlyFull.emptied = .done () s := ⟨_, rfl⟩
  refine ⟨s, made, ?_⟩
  rintro ⟨s', run, entries, _⟩
  have readable := readable_of_reload (addAll_emptied made).2.2 run entries _ (List.mem_singleton_self _)
  exact absurd readable.url (by decide)

end Libdap.Http
