import Mathlib.Data.Char
import Libdap.Foundation.KeyedSet
import Libdap.Http.Metadata

/-! # New headers over stored ones

`update_response` puts the new headers and then the stored ones into a set that compares names
only. The set holds one header for each name, so that headers with one name are lost but for
the first of them.
-/

namespace Libdap.Http.Metadata

/-- What `update_response` makes of the metadata file. A file whose lines cannot be told is left out. -/
def update_metadata (file : Text) (headers : List Text) : Option (Except String Text) :=
  (read_metadata file).map fun old_headers => write_metadata (mergeHeaders headers old_headers)

/-- The name of the header is one of those that are looked for. -/
def HopByHop (header : Text) : Prop := String.ofList (headerName header) ∈ hop_by_hop_names

instance (header : Text) : Decidable (HopByHop header) := inferInstanceAs (Decidable (_ ∈ _))

/-- What is to be stored: the new headers but the hop-by-hop ones, and the old ones with other names. -/
def Wanted (headers old : List Text) (header : Text) : Prop :=
  header ∈ headers ∧ ¬ HopByHop header ∨
    header ∈ old ∧ ∀ new ∈ headers, headerName new ≠ headerName header

/-- The file is written, and the headers that it holds then are those wanted. -/
def Merges (file : Text) (headers old : List Text) : Prop :=
  ∃ file' stored, update_metadata file headers = some (.ok file') ∧ read_metadata file' = some stored ∧
    ∀ header, header ∈ stored ↔ Wanted headers old header

/-- A header is the first of its name, has no hop-by-hop name anywhere and can be stored as a line. -/
structure Survives (all : List Text) (header : Text) : Prop where
  first : all.find? (fun other => decide (headerName other = headerName header)) = some header
  kept : is_hop_by_hop_header header = false
  filled : header ≠ []
  short : header.length ≤ 1022
  noNull : '\x00' ∉ header

/-! ## The set -/

theorem insertHeader_eq (header : Text) (merged : List Text) :
    insertHeader header merged = insertKeyed headerName header merged := by
  induction merged with
  | nil => rfl
  | cons other rest ih =>
      rw [insertHeader, insertKeyed, ih]
      split <;> congr

theorem mem_mergeHeaders {headers old : List Text} {header : Text} : header ∈ mergeHeaders headers old ↔
    (headers ++ old).find? (fun other => decide (headerName other = headerName header)) = some header := by
  have same : (headers ++ old).foldl (fun merged header => insertHeader header merged) [] =
      keyedSet headerName (headers ++ old) := by
    simp only [insertHeader_eq]
    rfl
  rw [mergeHeaders, List.mem_reverse, same, mem_keyedSet]
  exact Eq.congr_left (congrArg (List.find? · _) (funext fun other => decide_eq_decide.mpr Iff.rfl))

/-- What is in the set and not left out is wanted. -/
theorem wanted_of_mem {headers old : List Text} {header : Text} (mem : header ∈ mergeHeaders headers old)
    (kept : is_hop_by_hop_header header = false) : Wanted headers old header := by
  have found := mem_mergeHeaders.mp mem
  have notHop : ¬ HopByHop header := by
    intro hop
    simp [is_hop_by_hop_of_name hop] at kept
  rw [List.find?_append] at found
  cases first : headers.find? (fun other => decide (headerName other = headerName header)) with
  | some new =>
      rw [first, Option.some_or, Option.some.injEq] at found
      subst found
      exact .inl ⟨List.mem_of_find?_eq_some first, notHop⟩
  | none =>
      rw [first, Option.none_or] at found
      refine .inr ⟨List.mem_of_find?_eq_some found, ?_⟩
      intro new there
      simpa using List.find?_eq_none.mp first new there

/-! ## The file -/

/-- The headers that are written. -/
def keptHeaders (headers old : List Text) : List Text :=
  (mergeHeaders headers old).filter fun header => !is_hop_by_hop_header header

theorem mem_keptHeaders {headers old : List Text} {header : Text} :
    header ∈ keptHeaders headers old ↔ header ∈ mergeHeaders headers old ∧ is_hop_by_hop_header header = false := by
  rw [keptHeaders, List.mem_filter, Bool.not_eq_true']

theorem mapM_lineOf_iff {headers lines : List Text} : headers.mapM lineOf = .ok lines ↔
    (∀ header ∈ headers, header ≠ []) ∧ lines = headers.map fun header => header ++ ['\n'] := by
  induction headers generalizing lines with
  | nil =>
      rw [List.mapM_nil, List.map_nil, eq_comm]
      constructor
      · intro wrote
        cases wrote
        exact ⟨by simp, rfl⟩
      · intro ⟨_, none_⟩
        rw [none_]
        rfl
  | cons header headers ih =>
      rw [List.mapM_cons, List.forall_mem_cons, List.map_cons]
      by_cases empty : header = []
      · rw [lineOf, if_pos empty]
        refine iff_of_false ?_ fun wrote => wrote.1.1 empty
        intro wrote
        cases wrote
      · rw [lineOf, if_neg empty]
        cases rest : headers.mapM lineOf with
        | error e =>
            refine iff_of_false (fun wrote => by cases wrote) ?_
            intro ⟨⟨_, filled⟩, _⟩
            rw [ih.mpr ⟨filled, rfl⟩] at rest
            cases rest
        | ok others =>
            obtain ⟨filled, eq⟩ := ih.mp rest
            constructor
            · intro wrote
              cases wrote
              exact ⟨⟨empty, filled⟩, by rw [eq]⟩
            · intro ⟨_, same⟩
              rw [same, ← eq]
              rfl

/-- A file that is written holds what is kept, of which nothing is empty. -/
theorem write_metadata_ok_iff {headers : List Text} {file : Text} : write_metadata headers = .ok file ↔
    (∀ header ∈ headers.filter (fun header => !is_hop_by_hop_header header), header ≠ []) ∧
      file = fileOf (headers.filter fun header => !is_hop_by_hop_header header) := by
  rw [write_metadata, fileOf, List.flatMap_def]
  cases wrote : (headers.filter fun header => !is_hop_by_hop_header header).mapM lineOf with
  | error e =>
      refine iff_of_false (fun ok => by cases ok) ?_
      rintro ⟨filled, -⟩
      rw [mapM_lineOf_iff.mpr ⟨filled, rfl⟩] at wrote
      cases wrote
  | ok lines =>
      obtain ⟨filled, eq⟩ := mapM_lineOf_iff.mp wrote
      subst eq
      constructor
      · intro ok
        cases ok
        exact ⟨filled, rfl⟩
      · rintro ⟨-, same⟩
        rw [same]
        rfl

/-- A newline ends a piece. -/
theorem newline_notMem_dropLast {line text piece : Text} (none_ : '\n' ∉ line)
    (mem : piece ∈ fgetsLines line text) : '\n' ∉ piece.dropLast := by
  fun_induction fgetsLines line text with
  | case1 => simp at mem
  | case2 line some_ =>
      cases List.mem_singleton.mp mem
      exact fun there => none_ (List.dropLast_subset _ there)
  | case3 line ch rest cut ih =>
      cases mem with
      | head =>
          rw [List.dropLast_concat]
          exact none_
      | tail _ mem => exact ih (by simp) mem
  | case4 line ch rest goesOn ih =>
      refine ih ?_ mem
      have other : ch ≠ '\n' := fun eq => goesOn (.inl eq)
      simp [none_, other.symm]

theorem newline_notMem_of_read {file : Text} {old : List Text} (read : read_metadata file = some old)
    {header : Text} (mem : header ∈ old) : '\n' ∉ header := by
  obtain ⟨line, piece, erased⟩ := exists_of_forall₂ (forall₂_of_mapM read) mem
  have none_ := newline_notMem_dropLast (by simp) piece
  rw [eraseNewline] at erased
  split at erased
  · cases erased
  · cases erased
    intro there
    have short : min 1024 (cstr line).length - 1 ≤ line.length - 1 := by
      have le := (cstr_of_isInfix line).length_le
      omega
    have starts : (cstr line).take (min 1024 (cstr line).length - 1) <+: line.dropLast := by
      rw [List.dropLast_eq_take]
      refine List.prefix_take_iff.mpr ⟨(List.take_prefix _ _).trans (List.takeWhile_prefix _), ?_⟩
      rw [List.length_take]
      omega
    exact none_ (starts.subset there)

theorem newline_notMem_of_wanted {file : Text} {headers old : List Text} (read : read_metadata file = some old)
    (lines : ∀ header ∈ headers, '\n' ∉ header) {header : Text} (wanted : Wanted headers old header) :
    '\n' ∉ header := by
  obtain ⟨mem, -⟩ | ⟨mem, -⟩ := wanted
  · exact lines header mem
  · exact newline_notMem_of_read read mem

/-- The metadata hold what is wanted when all of it survives: no header with the name of one before it, and
    none that is left out or cut. -/
theorem merges_iff {file : Text} {headers old : List Text} (read : read_metadata file = some old)
    (lines : ∀ header ∈ headers, '\n' ∉ header) :
    Merges file headers old ↔ ∀ header, Wanted headers old header → Survives (headers ++ old) header := by
  have updated : update_metadata file headers = some (write_metadata (mergeHeaders headers old)) := by
    rw [update_metadata, read, Option.map_some]
  have noNewline : ∀ header ∈ keptHeaders headers old, '\n' ∉ header := by
    intro header mem
    obtain ⟨there, kept⟩ := mem_keptHeaders.mp mem
    exact newline_notMem_of_wanted read lines (wanted_of_mem there kept)
  constructor
  · intro ⟨file', stored, result, reads, holds⟩ header wanted
    rw [updated, Option.some.injEq, write_metadata_ok_iff] at result
    obtain ⟨filled, rfl⟩ := result
    have fits : ∀ header ∈ keptHeaders headers old, header.length ≤ 1022 ∧ '\x00' ∉ header := by
      intro header mem
      obtain ⟨there, kept⟩ := mem_keptHeaders.mp mem
      exact (mem_of_read reads ((holds header).mpr (wanted_of_mem there kept))).2
    have whole := read_fileOf noNewline (fun header mem => (fits header mem).1) fun header mem => (fits header mem).2
    have same : stored = keptHeaders headers old := Option.some.inj (reads.symm.trans whole)
    have mem : header ∈ keptHeaders headers old := same ▸ (holds header).mpr wanted
    obtain ⟨there, kept⟩ := mem_keptHeaders.mp mem
    obtain ⟨short, noNull⟩ := fits header mem
    exact ⟨mem_mergeHeaders.mp there, kept, filled header mem, short, noNull⟩
  · intro survives
    have all : ∀ header ∈ keptHeaders headers old, Survives (headers ++ old) header := by
      intro header mem
      obtain ⟨there, kept⟩ := mem_keptHeaders.mp mem
      exact survives header (wanted_of_mem there kept)
    have wrote := write_metadata_ok_iff.mpr ⟨fun header mem => (all header mem).filled, rfl⟩
    refine ⟨_, keptHeaders headers old, updated.trans (congrArg some wrote), ?_, ?_⟩
    · exact read_fileOf noNewline (fun header mem => (all header mem).short) fun header mem => (all header mem).noNull
    · intro header
      constructor
      · intro mem
        obtain ⟨there, kept⟩ := mem_keptHeaders.mp mem
        exact wanted_of_mem there kept
      · intro wanted
        have ok := survives header wanted
        exact mem_keptHeaders.mpr ⟨mem_mergeHeaders.mpr ok.first, ok.kept⟩

theorem merges_other_names :
    Merges "Server: a\nDate: b\n".toList ["Date: c".toList] ["Server: a".toList, "Date: b".toList] := by
  refine (merges_iff (by decide) (by decide)).mpr ?_
  intro header wanted
  obtain ⟨mem, -⟩ | ⟨mem, other⟩ := wanted
  · cases List.mem_singleton.mp mem
    exact ⟨by decide, by decide, by decide, by decide, by decide⟩
  · cases mem with
    | head => exact ⟨by decide, by decide, by decide, by decide, by decide⟩
    | tail _ mem =>
        cases List.mem_singleton.mp mem
        exact absurd (by decide) (other "Date: c".toList (.head _))

/-- Two headers of one name are stored, and the name is in no new header. -/
theorem second_cookie_lost :
    ¬ ∀ file headers old, read_metadata file = some old → (∀ header ∈ headers, '\n' ∉ header) →
      Merges file headers old := by
  intro all
  obtain ⟨file', stored, result, reads, holds⟩ :=
    all "Set-Cookie: a\nSet-Cookie: b\n".toList [] ["Set-Cookie: a".toList, "Set-Cookie: b".toList] (by decide)
      (by simp)
  have wrote : update_metadata "Set-Cookie: a\nSet-Cookie: b\n".toList [] = some (.ok "Set-Cookie: a\n".toList) := by
    decide
  rw [wrote] at result
  cases result
  have back : read_metadata "Set-Cookie: a\n".toList = some ["Set-Cookie: a".toList] := by decide
  rw [back] at reads
  cases reads
  have there := (holds "Set-Cookie: b".toList).mpr (.inr ⟨by simp, by simp⟩)
  revert there
  decide

end Libdap.Http.Metadata
