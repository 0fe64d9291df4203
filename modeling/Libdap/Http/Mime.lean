import Libdap.Foundation.LineReads
import Libdap.Http.Lines

/-! # Parts of a multipart response

`mime_util.cc`: the header lines of a part, from a stream or from a file, a header split into
its name and value, and the boundary in front of a part.
-/

namespace Libdap.Http

/-- `line_length`, the size of both buffers. -/
def line_length : Nat := 1024

def noHeader : String := "I expected to find a MIME header, but got EOF instead."

def brokenBoundary : String :=
  "The DAP4 data response document is broken - missing or malformed boundary."

/-- An `Error`, or a use of memory that is not the buffer's. -/
inductive MimeFailure where
  | error (message : String)
  | undefined
  deriving DecidableEq, Repr

/-- A `FILE *` that is read. -/
structure CFile where
  rest : Text
  eof : Bool
  deriving DecidableEq, Repr

/-- A line with a carriage return anywhere loses its last character. -/
def stripReturn (line : Text) : Text := if '\r' ∈ line then line.dropLast else line

/-- `get_next_mime_header` of a stream. The loop is left in its first turn. -/
def getNextMimeHeader (in_ : LineStream Char) : Except MimeFailure (Text × LineStream Char) :=
  if in_.eof then .error (.error noHeader)
  else
    let (raw_line, in_) := in_.getline line_length '\n'
    .ok (stripReturn (cstr raw_line), in_)

/-- The text without a carriage return at its end. -/
def content (line : Text) : Text := if line.getLast? = some '\r' then line.dropLast else line

/-- `get_next_mime_header` of a file. Without a line `fgets` leaves the buffer as it was, and a text of
    less than two characters has no `line[slen - 2]`. -/
def getNextMimeHeaderFile (in_ : CFile) : Except MimeFailure (Text × CFile) :=
  if in_.eof then .error (.error noHeader)
  else
    let (line, rest, eof) := fgets '\n' (line_length - 1) in_.rest
    if line = [] then .error .undefined
    else if ['\r', '\n'].isPrefixOf line ∨ line.head? = some '\n' then .ok ([], ⟨rest, eof⟩)
    else if (cstr line).length < 2 then .error .undefined
    else .ok (content (cstr line).dropLast, ⟨rest, eof⟩)

def downcase (s : Text) : Text := s.map Char.toLower

/-- `parse_mime_header` -/
def parseMimeHeader (header : Text) : Text × Text :=
  let length := header.length + 1
  let (name, iss) := (LineStream.of header).getline length ':'
  let (value, _) := (iss.ignore length ' ').getline length '\n'
  (downcase (cstr name), downcase (cstr value))

/-- `strncmp(a, b, n) == 0` -/
def strncmpEq (a b : Text) (n : Nat) : Bool := (cstr a).take n == (cstr b).take n

/-- `is_boundary` -/
def isBoundary (line boundary : Text) : Bool :=
  if (cstr line).length < 2 || !(['-', '-'].isPrefixOf line) then false
  else strncmpEq line boundary boundary.length

/-- `read_multipart_boundary` of a file or of a stream. -/
def readMultipartBoundary {σ : Type} (next : σ → Except MimeFailure (Text × σ)) (in_ : σ) (boundary : Text) :
    Except MimeFailure (Text × σ) :=
  match next in_ with
  | .error e => .error e
  | .ok (boundary_line, in_) =>
      if (boundary ≠ [] ∧ isBoundary boundary_line boundary = true) ∨ ¬ ['-', '-'] <+: boundary_line then
        .error (.error brokenBoundary)
      else .ok (boundary_line, in_)

/-- The header lines of a part with their carriage returns, and the blank line behind them. -/
structure HeaderLines where
  lines : List Text
  blank : Text
  filled : ∀ line ∈ lines, '\n' ∉ line ∧ content line ≠ []
  empty : '\n' ∉ blank ∧ content blank = []

def HeaderLines.text (h : HeaderLines) (rest : Text) : Text :=
  h.lines.foldr (fun line text => line ++ '\n' :: text) (h.blank ++ '\n' :: rest)

/-- A line that a stream delivers: it fits, it is one C string, and a carriage return ends it. -/
def StreamLine (line : Text) : Prop :=
  line.length < line_length ∧ '\x00' ∉ line ∧ ('\r' ∈ line → line.getLast? = some '\r')

/-- A line that a file delivers: it fits with its newline, and it is one C string. -/
def FileLine (line : Text) : Prop := line.length + 1 < line_length ∧ '\x00' ∉ line

/-! ## Lines without their ends -/

theorem content_length (line : Text) : line.length ≤ (content line).length + 1 := by
  rw [content]
  split
  · rw [List.length_dropLast]
    omega
  · omega

theorem content_length_le (line : Text) : (content line).length ≤ line.length := by
  rw [content]
  split <;> simp

theorem eq_of_content_nil {line : Text} (empty : content line = []) : line = [] ∨ line = ['\r'] := by
  rw [content] at empty
  split at empty
  next last =>
    obtain ⟨front, rfl⟩ := List.getLast?_eq_some_iff.mp last
    rw [List.dropLast_concat] at empty
    exact .inr (by rw [empty]; rfl)
  next => exact .inl empty

theorem stripReturn_length (line : Text) : (stripReturn line).length ≤ line.length := by
  rw [stripReturn]
  split <;> simp

theorem stripReturn_nil : stripReturn [] = [] := rfl

theorem cstr_append_null {front : Text} (absent : '\x00' ∉ front) (back : Text) :
    cstr (front ++ '\x00' :: back) = front := by
  have kept : ∀ ch ∈ front, decide (ch ≠ '\x00') = true := by
    intro ch mem
    exact decide_eq_true fun same => absent (same ▸ mem)
  rw [cstr, List.takeWhile_append_of_pos kept]
  simp

/-- A null loses more of a line than its end. -/
theorem cstr_length_lt {line : Text} (null : '\x00' ∈ line) : (cstr line).length < (content line).length ∨
    (cstr line).length < line.length ∧ content line = line := by
  obtain ⟨front, back, split, absent⟩ := List.eq_append_cons_of_mem null
  subst split
  rw [cstr_append_null absent, content]
  cases back with
  | nil =>
      refine .inr ⟨by simp, if_neg ?_⟩
      simp
  | cons ch back =>
      left
      split
      · simp
      · simp

theorem stripReturn_cstr_eq_iff {line : Text} :
    stripReturn (cstr line) = content line ↔ '\x00' ∉ line ∧ ('\r' ∈ line → line.getLast? = some '\r') := by
  constructor
  · intro same
    have short := stripReturn_length (cstr line)
    rw [same] at short
    have noNull : '\x00' ∉ line := by
      intro null
      obtain less | ⟨less, whole⟩ := cstr_length_lt null
      · omega
      · rw [whole] at short
        omega
    refine ⟨noNull, ?_⟩
    intro mem
    by_contra other
    have some_ : line ≠ [] := List.ne_nil_of_mem mem
    rw [cstr_eq_self noNull, stripReturn, if_pos mem, content, if_neg other] at same
    have pos := List.length_pos_iff.mpr some_
    have length := congrArg List.length same
    rw [List.length_dropLast] at length
    omega
  · intro ⟨noNull, ends⟩
    rw [cstr_eq_self noNull, stripReturn, content]
    by_cases mem : '\r' ∈ line
    · rw [if_pos mem, if_pos (ends mem)]
    · rw [if_neg mem, if_neg fun last => mem (List.mem_of_getLast? last)]

/-! ## The lines of a stream -/

theorem HeaderLines.text_cons {line : Text} {lines : List Text} {blank : Text}
    (all : ∀ l ∈ line :: lines, '\n' ∉ l ∧ content l ≠ []) (filled : ∀ l ∈ lines, '\n' ∉ l ∧ content l ≠ [])
    (empty : '\n' ∉ blank ∧ content blank = []) (rest : Text) :
    (HeaderLines.mk (line :: lines) blank all empty).text rest =
      line ++ '\n' :: (HeaderLines.mk lines blank filled empty).text rest := rfl

theorem getNextMimeHeader_line {line : Text} (oneLine : '\n' ∉ line) (fits : line.length < line_length)
    (rest : Text) :
    getNextMimeHeader (.of (line ++ '\n' :: rest)) = .ok (stripReturn (cstr line), .of rest) := by
  have read : (LineStream.of (line ++ '\n' :: rest)).getline line_length '\n' = (line, .of rest) :=
    LineStream.getline_delimiter oneLine (Nat.le_sub_one_of_lt fits) rest
  simp only [getNextMimeHeader, read]
  rfl

/-- A longer line is cut, and the stream fails. -/
theorem getNextMimeHeader_long {line : Text} (oneLine : '\n' ∉ line) (long : line_length ≤ line.length)
    (rest : Text) :
    ∃ text left, getNextMimeHeader (.of (line ++ rest)) = .ok (text, ⟨left, false, true⟩) := by
  have pos : 0 < line_length := by decide
  have past : line_length - 1 < line.length := by omega
  have read := LineStream.getline_full oneLine past rest
  simp only [getNextMimeHeader, read]
  exact ⟨_, _, rfl⟩

theorem getNextMimeHeader_failed (left : Text) :
    getNextMimeHeader ⟨left, false, true⟩ = .ok ([], ⟨left, false, true⟩) := by
  rw [getNextMimeHeader, LineStream.getline_of_fail rfl]
  rfl

theorem getNextMimeHeader_blank (h : HeaderLines) (rest : Text) :
    getNextMimeHeader (.of (h.blank ++ '\n' :: rest)) = .ok ([], .of rest) := by
  obtain ⟨oneLine, empty⟩ := h.empty
  obtain blank | blank := eq_of_content_nil empty
  · rw [blank]
    exact @getNextMimeHeader_line [] (by simp) (by decide) rest
  · rw [blank]
    exact @getNextMimeHeader_line ['\r'] (by decide) (by decide) rest

theorem delivers_stream_iff (h : HeaderLines) (rest : Text) :
    Delivers getNextMimeHeader (.of (h.text rest)) (h.lines.map content) (.of rest) ↔
      ∀ line ∈ h.lines, StreamLine line := by
  obtain ⟨lines, blank, filled, empty⟩ := h
  induction lines with
  | nil =>
      have read := getNextMimeHeader_blank ⟨[], blank, filled, empty⟩ rest
      exact iff_of_true ((delivers_nil read).mpr ⟨rfl, rfl⟩) (by simp)
  | cons line lines ih =>
      obtain ⟨⟨oneLine, some_⟩, filled'⟩ := List.forall_mem_cons.mp filled
      have ih := ih filled'
      rw [HeaderLines.text_cons filled filled' empty, List.map_cons, List.forall_mem_cons]
      by_cases fits : line.length < line_length
      · have read := getNextMimeHeader_line oneLine fits (HeaderLines.text ⟨lines, blank, filled', empty⟩ rest)
        by_cases same : stripReturn (cstr line) = content line
        · have ok : StreamLine line := ⟨fits, stripReturn_cstr_eq_iff.mp same⟩
          rw [same] at read
          rw [delivers_cons read some_, ← ih]
          constructor
          · intro ⟨others, eq, delivers⟩
            cases List.cons.inj eq with
            | intro _ eq => exact ⟨ok, eq ▸ delivers⟩
          · intro ⟨_, delivers⟩
            exact ⟨_, rfl, delivers⟩
        · refine iff_of_false ?_ fun ok => same (stripReturn_cstr_eq_iff.mpr ok.1.2)
          exact not_delivers_of_ne read same _ _
      · refine iff_of_false ?_ fun ok => fits ok.1.1
        intro delivers
        obtain ⟨text, left, read⟩ := getNextMimeHeader_long oneLine (Nat.not_lt.mp fits)
          ('\n' :: HeaderLines.text ⟨lines, blank, filled', empty⟩ rest)
        by_cases nothing : text = []
        · rw [nothing] at read
          cases ((delivers_nil read).mp delivers).1
        · obtain ⟨others, -, delivers⟩ := (delivers_cons read nothing).mp delivers
          cases ((delivers_nil (getNextMimeHeader_failed left)).mp delivers).2

/-! ## The lines of a file -/

theorem starts_blank_iff {line text : Text} (oneLine : '\n' ∉ line) :
    ['\r', '\n'].isPrefixOf (line ++ '\n' :: text) ∨ (line ++ '\n' :: text).head? = some '\n' ↔
      content line = [] := by
  cases line with
  | nil => simp [content]
  | cons ch line =>
      obtain ⟨other, oneLine⟩ := List.ne_and_not_mem_of_not_mem_cons oneLine
      cases line with
      | nil =>
          by_cases return_ : ch = '\r'
          · subst return_
            exact iff_of_true (.inl rfl) rfl
          · have whole : content [ch] = [ch] := if_neg fun last => return_ (Option.some.inj last)
            simp [whole, other.symm, Ne.symm return_]
      | cons ch' line =>
          obtain ⟨other', -⟩ := List.ne_and_not_mem_of_not_mem_cons oneLine
          have long := content_length (ch :: ch' :: line)
          simp only [List.length_cons] at long
          have filled : content (ch :: ch' :: line) ≠ [] := List.ne_nil_of_length_pos (by omega)
          simp [other.symm, other', filled]

theorem getNextMimeHeaderFile_blank (h : HeaderLines) (rest : Text) :
    getNextMimeHeaderFile ⟨h.blank ++ '\n' :: rest, false⟩ = .ok ([], ⟨rest, false⟩) := by
  obtain ⟨oneLine, empty⟩ := h.empty
  have short := content_length h.blank
  rw [empty] at short
  have fits : h.blank.length < line_length - 1 := by
    simp only [List.length_nil] at short
    exact Nat.lt_of_le_of_lt short (by decide)
  have read := fgets_line oneLine fits rest
  have starts := (@starts_blank_iff h.blank [] oneLine).mpr empty
  simp only [getNextMimeHeaderFile, Bool.false_eq_true, if_false, read]
  rw [if_neg (by simp), if_pos starts]

/-- What is stored loses its last character and a carriage return before that, if it has two characters. -/
theorem getNextMimeHeaderFile_of {line rest text : Text} (read : fgets '\n' (line_length - 1) text = (line, rest, false))
    (some_ : line ≠ []) (header : ¬ (['\r', '\n'].isPrefixOf line ∨ line.head? = some '\n')) :
    getNextMimeHeaderFile ⟨text, false⟩ =
      if (cstr line).length < 2 then .error .undefined else .ok (content (cstr line).dropLast, ⟨rest, false⟩) := by
  simp only [getNextMimeHeaderFile, Bool.false_eq_true, if_false, read]
  rw [if_neg some_, if_neg header]

theorem getNextMimeHeaderFile_line {line : Text} (oneLine : '\n' ∉ line) (some_ : content line ≠ [])
    (fits : line.length + 1 < line_length) (noNull : '\x00' ∉ line) (rest : Text) :
    getNextMimeHeaderFile ⟨line ++ '\n' :: rest, false⟩ = .ok (content line, ⟨rest, false⟩) := by
  have read := fgets_line oneLine (Nat.lt_sub_of_add_lt fits) rest
  have whole : cstr (line ++ ['\n']) = line ++ ['\n'] := by
    apply cstr_eq_self
    simpa using noNull
  have filled : line ≠ [] := by
    intro empty
    subst empty
    exact some_ rfl
  have pos := List.length_pos_iff.mpr filled
  rw [getNextMimeHeaderFile_of read (by simp) ((starts_blank_iff oneLine).not.mpr some_), whole,
    List.dropLast_concat, if_neg (by simp; omega)]

/-- What is read of a line is shorter than what was stored. -/
theorem getNextMimeHeaderFile_short {line rest text : Text} {n : Nat}
    (read : fgets '\n' (line_length - 1) text = (line, rest, false)) (some_ : line ≠ [])
    (header : ¬ (['\r', '\n'].isPrefixOf line ∨ line.head? = some '\n')) (short : (cstr line).length ≤ n) :
    getNextMimeHeaderFile ⟨text, false⟩ = .error .undefined ∨
      ∃ l, getNextMimeHeaderFile ⟨text, false⟩ = .ok (l, ⟨rest, false⟩) ∧ l.length < n := by
  rw [getNextMimeHeaderFile_of read some_ header]
  split
  · exact .inl rfl
  · refine .inr ⟨_, rfl, ?_⟩
    have less := content_length_le (cstr line).dropLast
    rw [List.length_dropLast] at less
    omega

theorem cstr_append_of_null {line : Text} (null : '\x00' ∈ line) (text : Text) :
    cstr (line ++ text) = cstr line := by
  obtain ⟨front, back, split, absent⟩ := List.eq_append_cons_of_mem null
  rw [split, List.append_assoc, List.cons_append, cstr_append_null absent, cstr_append_null absent]

theorem cstr_length_le (text : Text) : (cstr text).length ≤ text.length := (cstr_of_isInfix text).length_le

theorem HeaderLines.lt_text (h : HeaderLines) (rest : Text) : rest.length < (h.text rest).length := by
  obtain ⟨lines, blank, filled, empty⟩ := h
  induction lines with
  | nil =>
      simp [HeaderLines.text]
      omega
  | cons line lines ih =>
      have filled' : ∀ l ∈ lines, '\n' ∉ l ∧ content l ≠ [] := fun l mem => filled l (.tail _ mem)
      have inner := ih filled'
      rw [HeaderLines.text_cons filled filled' empty]
      simp only [List.length_append, List.length_cons]
      omega

/-- A line that is cut: either its text is not all delivered, or only its carriage return is cut off and
    the newline behind that passes for the blank line. -/
theorem not_delivers_cut {line : Text} (oneLine : '\n' ∉ line) (some_ : content line ≠ [])
    (long : line_length ≤ line.length + 1) {text rest : Text} (more : rest.length < text.length)
    (lines : List Text) :
    ¬ Delivers getNextMimeHeaderFile ⟨line ++ '\n' :: text, false⟩ (content line :: lines) ⟨rest, false⟩ := by
  have room : line_length - 1 = 1023 := rfl
  have past : line_length - 1 ≤ line.length := by omega
  have read := fgets_cut oneLine past ('\n' :: text)
  have length : (line.take (line_length - 1)).length = 1023 := by
    rw [List.length_take, Nat.min_eq_left past, room]
  have filled : line.take (line_length - 1) ≠ [] := List.ne_nil_of_length_pos (by omega)
  have part : '\n' ∉ line.take (line_length - 1) := fun mem => oneLine (List.mem_of_mem_take mem)
  have header : ¬ (['\r', '\n'].isPrefixOf (line.take (line_length - 1)) ∨
      (line.take (line_length - 1)).head? = some '\n') := by
    intro blank
    cases blank with
    | inl crlf =>
        have start := List.isPrefixOf_iff_prefix.mp crlf
        exact part (start.subset (by simp))
    | inr newline => exact part (List.mem_of_head? newline)
  have short : (cstr (line.take (line_length - 1))).length ≤ 1023 := length ▸ cstr_length_le _
  obtain undefined | ⟨l, result, less⟩ := getNextMimeHeaderFile_short read filled header short
  · exact not_delivers_of_error undefined _ _
  · by_cases same : l = content line
    · have bound := content_length line
      rw [← same] at bound
      have whole : line.length = 1023 := by
        have long' : 1023 ≤ line.length := past
        omega
      rw [List.drop_of_length_le (by omega), List.nil_append] at result
      intro delivers
      rw [same] at result
      obtain ⟨others, -, delivers⟩ := (delivers_cons result some_).mp delivers
      have blank := getNextMimeHeaderFile_blank ⟨[], [], by simp, by simp [content]⟩ text
      have ends := ((delivers_nil blank).mp delivers).2
      have equal := congrArg (fun s => s.rest.length) ends
      simp only at equal
      omega
    · exact not_delivers_of_ne result same _ _

theorem delivers_file_iff (h : HeaderLines) (rest : Text) :
    Delivers getNextMimeHeaderFile ⟨h.text rest, false⟩ (h.lines.map content) ⟨rest, false⟩ ↔
      ∀ line ∈ h.lines, FileLine line := by
  obtain ⟨lines, blank, filled, empty⟩ := h
  induction lines with
  | nil =>
      have read := getNextMimeHeaderFile_blank ⟨[], blank, filled, empty⟩ rest
      exact iff_of_true ((delivers_nil read).mpr ⟨rfl, rfl⟩) (by simp)
  | cons line lines ih =>
      obtain ⟨⟨oneLine, some_⟩, filled'⟩ := List.forall_mem_cons.mp filled
      have ih := ih filled'
      rw [HeaderLines.text_cons filled filled' empty, List.map_cons, List.forall_mem_cons]
      by_cases fits : line.length + 1 < line_length
      · by_cases null : '\x00' ∈ line
        · refine iff_of_false ?_ fun ok => ok.1.2 null
          have read := fgets_line oneLine (Nat.lt_sub_of_add_lt fits)
            (HeaderLines.text ⟨lines, blank, filled', empty⟩ rest)
          have header := (@starts_blank_iff line [] oneLine).not.mpr some_
          have short : (cstr (line ++ ['\n'])).length ≤ (cstr line).length :=
            (cstr_append_of_null null _) ▸ Nat.le_refl _
          obtain undefined | ⟨l, result, less⟩ := getNextMimeHeaderFile_short read (by simp) header short
          · exact not_delivers_of_error undefined _ _
          · refine not_delivers_of_ne result ?_ _ _
            intro same
            rw [same] at less
            obtain shorter | ⟨shorter, whole⟩ := cstr_length_lt null
            · omega
            · rw [whole] at less
              omega
        · have read := getNextMimeHeaderFile_line oneLine some_ fits null
            (HeaderLines.text ⟨lines, blank, filled', empty⟩ rest)
          rw [delivers_cons read some_, ← ih]
          constructor
          · intro ⟨others, eq, delivers⟩
            cases List.cons.inj eq with
            | intro _ eq => exact ⟨⟨fits, null⟩, eq ▸ delivers⟩
          · intro ⟨_, delivers⟩
            exact ⟨_, rfl, delivers⟩
      · refine iff_of_false ?_ fun ok => fits ok.1.1
        exact not_delivers_cut oneLine some_ (Nat.not_lt.mp fits) (HeaderLines.lt_text _ rest) _

/-! ## A header -/

/-- A header line: its name has no colon. -/
structure MimeHeader where
  name : Text
  value : Text
  nameOnly : ':' ∉ name
  oneLine : '\n' ∉ value

def MimeHeader.line (h : MimeHeader) : Text := h.name ++ ':' :: ' ' :: h.value

theorem parseMimeHeader_line (h : MimeHeader) :
    parseMimeHeader h.line = (downcase (cstr h.name), downcase (cstr h.value)) := by
  have length : h.line.length = h.name.length + h.value.length + 2 := by
    simp only [MimeHeader.line, List.length_append, List.length_cons]
    omega
  have name : (LineStream.of h.line).getline (h.line.length + 1) ':' = (h.name, .of (' ' :: h.value)) :=
    LineStream.getline_delimiter h.nameOnly (by omega) (' ' :: h.value)
  have blank : (LineStream.of (' ' :: h.value)).ignore (h.line.length + 1) ' ' = .of h.value :=
    LineStream.ignore_next (Nat.succ_pos _) h.value
  have value : (LineStream.of h.value).getline (h.line.length + 1) '\n' = (h.value, ⟨[], true, h.value.isEmpty⟩) :=
    LineStream.getline_atEnd h.oneLine (by omega)
  simp only [parseMimeHeader, name, blank, value]

theorem downcase_cstr_eq_iff (text : Text) : downcase (cstr text) = downcase text ↔ '\x00' ∉ text := by
  constructor
  · intro same null
    have length := congrArg List.length same
    simp only [downcase, List.length_map] at length
    obtain ⟨front, back, split, absent⟩ := List.eq_append_cons_of_mem null
    rw [split, cstr_append_null absent] at length
    simp at length
  · intro noNull
    rw [cstr_eq_self noNull]

theorem parseMimeHeader_iff (h : MimeHeader) :
    parseMimeHeader h.line = (downcase h.name, downcase h.value) ↔ '\x00' ∉ h.name ∧ '\x00' ∉ h.value := by
  rw [parseMimeHeader_line, Prod.mk.injEq, downcase_cstr_eq_iff, downcase_cstr_eq_iff]

/-! ## A boundary -/

theorem cstr_dashes (rest : Text) : cstr ('-' :: '-' :: rest) = '-' :: '-' :: cstr rest := by simp [cstr]

theorem isBoundary_self {line : Text} (starts : ['-', '-'] <+: line) : isBoundary line line = true := by
  obtain ⟨rest, rfl⟩ := starts
  have two : ((cstr ('-' :: '-' :: rest)).length < 2) = False := by simp [cstr_dashes]
  show isBoundary ('-' :: '-' :: rest) ('-' :: '-' :: rest) = true
  simp only [isBoundary, strncmpEq, two]
  simp

theorem readMultipartBoundary_eq {σ : Type} {next : σ → Except MimeFailure (Text × σ)} {s s' : σ} {line : Text}
    (read : next s = .ok (line, s')) (boundary : Text) :
    readMultipartBoundary next s boundary =
      if (boundary ≠ [] ∧ isBoundary line boundary = true) ∨ ¬ ['-', '-'] <+: line then
        .error (.error brokenBoundary)
      else .ok (line, s') := by
  rw [readMultipartBoundary, read]

/-- The boundary itself is what is refused. -/
theorem readMultipartBoundary_iff {σ : Type} {next : σ → Except MimeFailure (Text × σ)} {s s' : σ} {line : Text}
    (read : next s = .ok (line, s')) {boundary : Text} (some_ : boundary ≠ []) :
    ((∃ r, readMultipartBoundary next s boundary = .ok r) ↔ line = boundary) ↔
      line ≠ boundary ∧ (['-', '-'] <+: line → isBoundary line boundary = true) := by
  have accepts : (∃ r, readMultipartBoundary next s boundary = .ok r) ↔
      ['-', '-'] <+: line ∧ ¬ isBoundary line boundary = true := by
    rw [readMultipartBoundary_eq read]
    split
    next refused =>
      refine iff_of_false (by simp) ?_
      intro ⟨starts, differs⟩
      cases refused with
      | inl known => exact differs known.2
      | inr other => exact other starts
    next accepted =>
      obtain ⟨differs, starts⟩ := not_or.mp accepted
      refine iff_of_true ⟨_, rfl⟩ ⟨not_not.mp starts, fun known => differs ⟨some_, known⟩⟩
  rw [accepts]
  constructor
  · intro same
    have other : line ≠ boundary := by
      intro eq
      obtain ⟨starts, differs⟩ := same.mpr eq
      exact differs (eq ▸ isBoundary_self starts)
    refine ⟨other, ?_⟩
    intro starts
    by_contra differs
    exact other (same.mp ⟨starts, differs⟩)
  · intro ⟨other, known⟩
    refine iff_of_false ?_ other
    intro ⟨starts, differs⟩
    exact differs (known starts)

/-- What is read of a part: the lines of its headers, from a stream and from a file, a header that is split,
    and a boundary that is expected. -/
theorem mime_part_iff (h : HeaderLines) (rest : Text) (header : MimeHeader) {σ : Type}
    (next : σ → Except MimeFailure (Text × σ)) (s s' : σ) (line boundary : Text) :
    (Delivers getNextMimeHeader (.of (h.text rest)) (h.lines.map content) (.of rest) ↔
      ∀ line ∈ h.lines, StreamLine line) ∧
    (Delivers getNextMimeHeaderFile ⟨h.text rest, false⟩ (h.lines.map content) ⟨rest, false⟩ ↔
      ∀ line ∈ h.lines, FileLine line) ∧
    (parseMimeHeader header.line = (downcase header.name, downcase header.value) ↔
      '\x00' ∉ header.name ∧ '\x00' ∉ header.value) ∧
    (next s = .ok (line, s') → boundary ≠ [] →
      (((∃ r, readMultipartBoundary next s boundary = .ok r) ↔ line = boundary) ↔
        line ≠ boundary ∧ (['-', '-'] <+: line → isBoundary line boundary = true))) :=
  ⟨delivers_stream_iff h rest, delivers_file_iff h rest, parseMimeHeader_iff header,
    fun read some_ => readMultipartBoundary_iff read some_⟩

theorem mime_part_other_boundary :
    ((∃ r, readMultipartBoundary getNextMimeHeader (.of ['-', '-', 'a', 'b', '\n']) ['-', '-', 'a'] = .ok r) ↔
      ['-', '-', 'a', 'b'] = ['-', '-', 'a']) :=
  ((mime_part_iff ⟨[], [], by simp, by decide⟩ [] ⟨[], [], by simp, by simp⟩ getNextMimeHeader (.of ['-', '-', 'a', 'b', '\n']) (.of [])
    ['-', '-', 'a', 'b'] ['-', '-', 'a']).2.2.2 rfl (by decide)).mpr ⟨by decide, fun _ => rfl⟩

theorem boundary_refused :
    ¬ ((∀ (h : HeaderLines) (rest : Text),
        Delivers getNextMimeHeader (.of (h.text rest)) (h.lines.map content) (.of rest)) ∧
      (∀ h : MimeHeader, parseMimeHeader h.line = (downcase h.name, downcase h.value)) ∧
      ∀ (s s' : LineStream Char) (line boundary : Text), getNextMimeHeader s = .ok (line, s') → boundary ≠ [] →
        ((∃ r, readMultipartBoundary getNextMimeHeader s boundary = .ok r) ↔ line = boundary)) := by
  intro ⟨_, _, all⟩
  have read : getNextMimeHeader (.of ['-', '-', 'b', '\n']) = .ok (['-', '-', 'b'], .of []) := rfl
  have refused : readMultipartBoundary getNextMimeHeader (.of ['-', '-', 'b', '\n']) ['-', '-', 'b'] =
      .error (.error brokenBoundary) := by
    rw [readMultipartBoundary_eq read]
    exact if_pos (.inl ⟨by decide, rfl⟩)
  obtain ⟨r, accepted⟩ := (all _ _ _ ['-', '-', 'b'] read (by decide)).mpr rfl
  rw [refused] at accepted
  cases accepted

end Libdap.Http
