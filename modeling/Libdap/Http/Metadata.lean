import Libdap.Http.Cache
import Libdap.Http.Lines

/-! # The metadata of a response

The headers of a response are kept in a file, one on each line. Headers that contain the
name of a hop-by-hop header are left out, and lines are read back as `fgets` cuts the file.
-/

namespace Libdap.Http.Metadata

/-- The header and its newline, in two items. An item of no bytes is not written. -/
def lineOf (header : Text) : Except String Text :=
  if header = [] then throw ("could not write header: '" ++ String.ofList header ++ "' 0")
  else pure (header ++ ['\n'])

/-- What is in the file when all has been written. -/
def write_metadata (headers : List Text) : Except String Text := do
  let lines ← (headers.filter fun header => !is_hop_by_hop_header header).mapM lineOf
  return lines.flatten

/-- The last character is taken for the newline. Where the line is empty up to its first null, what is
    erased is in front of the buffer. -/
def eraseNewline (line : Text) : Option Text :=
  if cstr line = [] then none else some ((cstr line).take (min 1024 (cstr line).length - 1))

def read_metadata (file : Text) : Option (List Text) := (fgetsLines [] file).mapM eraseNewline

/-- The text of a file with the headers as lines. -/
def fileOf (headers : List Text) : Text := headers.flatMap fun header => header ++ ['\n']

theorem write_metadata_eq {headers : List Text} (filled : ∀ header ∈ headers, header ≠ []) :
    write_metadata headers = .ok (fileOf (headers.filter fun header => !is_hop_by_hop_header header)) := by
  have all : ∀ kept : List Text, (∀ header ∈ kept, header ≠ []) →
      kept.mapM lineOf = Except.ok (kept.map fun header => header ++ ['\n']) := by
    intro kept filled
    induction kept with
    | nil => rfl
    | cons header kept ih =>
      have first : lineOf header = .ok (header ++ ['\n']) := if_neg (filled header List.mem_cons_self)
      rw [List.mapM_cons, first, ih fun header mem => filled header (List.mem_cons_of_mem _ mem)]
      rfl
  have kept := all (headers.filter fun header => !is_hop_by_hop_header header)
    fun header mem => filled header (List.mem_of_mem_filter mem)
  rw [write_metadata, kept, fileOf, List.flatMap_def]
  rfl

theorem eraseNewline_eq {text : Text} (noNull : '\x00' ∉ text) (short : text.length ≤ 1022) :
    eraseNewline (text ++ ['\n']) = some text := by
  have whole : cstr (text ++ ['\n']) = text ++ ['\n'] := by
    apply cstr_eq_self
    rw [List.mem_append, not_or]
    exact ⟨noNull, by decide⟩
  have last : min 1024 (text ++ ['\n']).length - 1 = text.length := by
    rw [List.length_append, List.length_singleton]
    omega
  rw [eraseNewline, whole, if_neg (by simp), last, List.take_left]

/-- What a line becomes: a part of it that is short and has no null. -/
theorem eraseNewline_some {line text : Text} (room : line.length ≤ 1023) (read : eraseNewline line = some text) :
    text <:+: line ∧ text.length ≤ 1022 ∧ '\x00' ∉ text := by
  unfold eraseNewline at read
  split at read
  · cases read
  · cases read
    have shorter := (cstr_of_isInfix line).length_le
    refine ⟨(List.take_prefix _ _).isInfix.trans (cstr_of_isInfix line), ?_, ?_⟩
    · rw [List.length_take]
      omega
    · intro null
      exact null_notMem_cstr line (List.mem_of_mem_take null)

theorem fgetsLines_fileOf (headers : List Text) : fgetsLines [] (fileOf headers) =
    headers.flatMap fun header => fgetsLines [] (header ++ ['\n']) := fgetsLines_flatMap (fun header => header) headers

/-- What is read is a part of a header, or of the newline behind it. -/
theorem mem_of_read {headers texts : List Text} {text : Text} (read : read_metadata (fileOf headers) = some texts)
    (mem : text ∈ texts) :
    (∃ header ∈ headers, text <:+: header ++ ['\n']) ∧ text.length ≤ 1022 ∧ '\x00' ∉ text := by
  obtain ⟨line, piece, erased⟩ := exists_of_forall₂ (forall₂_of_mapM read) mem
  obtain ⟨part, short, noNull⟩ := eraseNewline_some (length_of_mem_fgetsLines (Nat.zero_le _) piece) erased
  rw [fgetsLines_fileOf] at piece
  obtain ⟨header, there, piece⟩ := List.mem_flatMap.mp piece
  have inside := infix_of_mem_fgetsLines piece
  rw [List.nil_append] at inside
  exact ⟨⟨header, there, part.trans inside⟩, short, noNull⟩

section

variable {headers : List Text} (lines : ∀ header ∈ headers, '\n' ∉ header)

include lines

theorem read_fileOf (short : ∀ header ∈ headers, header.length ≤ 1022) (noNull : ∀ header ∈ headers, '\x00' ∉ header) :
    read_metadata (fileOf headers) = some headers := by
  rw [read_metadata, fgetsLines_fileOf]
  induction headers with
  | nil => rfl
  | cons header headers ih =>
    have whole : fgetsLines [] (header ++ ['\n']) = [header ++ ['\n']] := by
      apply fgetsLines_eq (lines header List.mem_cons_self)
      have here := short header List.mem_cons_self
      rwa [List.length_nil, Nat.zero_add]
    have first := eraseNewline_eq (noNull header List.mem_cons_self) (short header List.mem_cons_self)
    rw [List.flatMap_cons, whole, List.singleton_append, List.mapM_cons, first,
      ih (fun header mem => lines header (List.mem_cons_of_mem _ mem))
        (fun header mem => short header (List.mem_cons_of_mem _ mem))
        fun header mem => noNull header (List.mem_cons_of_mem _ mem)]
    rfl

end

/-- The names that are looked for. -/
def hop_by_hop_names : List String :=
  ["Connection", "Keep-Alive", "Proxy-Authenticate", "Proxy-Authorization", "Transfer-Encoding", "Upgrade"]

theorem is_hop_by_hop_iff {header : Text} :
    is_hop_by_hop_header header = true ↔ ∃ name ∈ hop_by_hop_names, name.toList <:+: header := by
  rw [is_hop_by_hop_header, List.any_eq_true]
  exact exists_congr fun name => and_congr Iff.rfl contains_iff

/-- A header with one of the names is left out. -/
theorem is_hop_by_hop_of_name {header : Text} (named : String.ofList (headerName header) ∈ hop_by_hop_names) :
    is_hop_by_hop_header header = true := by
  apply is_hop_by_hop_iff.mpr
  refine ⟨_, named, ?_⟩
  rw [String.toList_ofList]
  exact (List.takeWhile_prefix _).isInfix

/-- A part of a header that is kept is none of the others, and neither is it with its newline. -/
theorem not_hop_by_hop_of_isInfix {header text : Text} (kept : is_hop_by_hop_header header = false)
    (part : text <:+: header ++ ['\n']) : is_hop_by_hop_header text = false := by
  apply Bool.eq_false_iff.mpr
  intro found
  obtain ⟨name, listed, inside⟩ := is_hop_by_hop_iff.mp found
  have noNewline : ∀ name ∈ hop_by_hop_names, '\n' ∉ name.toList := by decide
  have there := infix_of_infix_concat (inside.trans part) (noNewline name listed)
  rw [is_hop_by_hop_iff.mpr ⟨name, listed, there⟩] at kept
  cases kept

/-- Filters that keep as many, of which one keeps what the other does, are the same. -/
theorem filter_agree {α : Type} {p q : α → Bool} {as : List α} (among : ∀ a ∈ as, p a = true → q a = true)
    (most : (as.filter q).length ≤ (as.filter p).length) : ∀ a ∈ as, p a = q a := by
  have same : as.filter p = (as.filter q).filter p := by
    rw [List.filter_filter]
    apply List.filter_congr
    intro a mem
    cases is : p a with
    | false => rfl
    | true => rw [among a mem is]; rfl
  have whole : (as.filter q).filter p = as.filter q :=
    List.filter_sublist.eq_of_length_le (same ▸ most)
  intro a mem
  cases is : q a with
  | true =>
    have there : a ∈ as.filter q := List.mem_filter.mpr ⟨mem, is⟩
    rw [← whole] at there
    exact List.of_mem_filter there
  | false =>
    apply Bool.eq_false_iff.mpr
    intro kept
    rw [among a mem kept] at is
    cases is

/-- The headers come back without the hop-by-hop ones, whatever names these have, exactly if those names and no others
    are found in them and what is kept fits in the buffer and has no null. -/
theorem round_trip_iff (hop_by_hop : Text → Bool) {headers : List Text}
    (lines : ∀ header ∈ headers, header ≠ [] ∧ '\n' ∉ header) :
    (∃ file, write_metadata headers = .ok file ∧
        read_metadata file = some (headers.filter fun header => !hop_by_hop (headerName header))) ↔
      ∀ header ∈ headers, is_hop_by_hop_header header = hop_by_hop (headerName header) ∧
        (hop_by_hop (headerName header) = false → header.length ≤ 1022 ∧ '\x00' ∉ header) := by
  have written := write_metadata_eq fun header mem => (lines header mem).1
  have kept : ∀ header ∈ headers.filter (fun header => !is_hop_by_hop_header header), '\n' ∉ header :=
    fun header mem => (lines header (List.mem_of_mem_filter mem)).2
  constructor
  · rintro ⟨file, wrote, read⟩
    rw [written] at wrote
    cases wrote
    have wanted : ∀ header ∈ headers, hop_by_hop (headerName header) = false →
        is_hop_by_hop_header header = false ∧ header.length ≤ 1022 ∧ '\x00' ∉ header := by
      intro header mem other
      obtain ⟨⟨whole, there, part⟩, rest⟩ :=
        mem_of_read read (List.mem_filter.mpr ⟨mem, by rw [other]; rfl⟩)
      have through := List.of_mem_filter there
      rw [Bool.not_eq_true'] at through
      exact ⟨not_hop_by_hop_of_isInfix through part, rest⟩
    have most := length_le_flatMap (fun header => fgetsLines_ne_nil [] header)
      (headers.filter fun header => !is_hop_by_hop_header header)
    rw [← fgetsLines_fileOf, (forall₂_of_mapM read).length_eq] at most
    have agree := filter_agree (p := fun header => !hop_by_hop (headerName header))
      (q := fun header => !is_hop_by_hop_header header) (fun header mem other => by
        rw [Bool.not_eq_true'] at other ⊢
        exact (wanted header mem other).1) most
    intro header mem
    exact ⟨(Bool.not_inj (agree header mem)).symm, fun other => (wanted header mem other).2⟩
  · intro fits
    have same : headers.filter (fun header => !is_hop_by_hop_header header) =
        headers.filter fun header => !hop_by_hop (headerName header) := by
      apply List.filter_congr
      intro header mem
      rw [(fits header mem).1]
    have good : ∀ header ∈ headers.filter (fun header => !is_hop_by_hop_header header),
        header.length ≤ 1022 ∧ '\x00' ∉ header := by
      intro header mem
      rw [same, List.mem_filter, Bool.not_eq_true'] at mem
      exact (fits header mem.1).2 mem.2
    refine ⟨_, written, ?_⟩
    rw [← same]
    exact read_fileOf kept (fun header mem => (good header mem).1) fun header mem => (good header mem).2

theorem server_header_kept :
    ∃ file, write_metadata ["Server: x".toList, "Connection: close".toList] = .ok file ∧
      read_metadata file = some (["Server: x".toList, "Connection: close".toList].filter fun header =>
        !decide (String.ofList (headerName header) ∈ hop_by_hop_names)) :=
  (round_trip_iff (fun name => decide (String.ofList name ∈ hop_by_hop_names)) (by decide)).mpr (by decide)

/-- The value of a header has the name of another one in it. -/
theorem server_header_lost :
    ¬∃ file, write_metadata ["Server: Upgrade".toList] = .ok file ∧
      read_metadata file = some (["Server: Upgrade".toList].filter fun header =>
        !decide (String.ofList (headerName header) ∈ hop_by_hop_names)) := by
  rintro ⟨file, wrote, read⟩
  cases wrote
  revert read
  decide

end Libdap.Http.Metadata
