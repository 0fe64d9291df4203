import Libdap.Dap2.DdsNumbers

/-! # Error objects on a stream

How an `Error` is printed, and how it is parsed: the rules of the scanner and the grammar. The scanner
keeps its start condition and its line numbers from one text to the next. What it echoes is left out.
-/

namespace Libdap.Dap2.ErrorText

open Text (showInt atoi)

abbrev Text := List Char

def undefined_error : Int := 1000

def cannot_read_file : Int := 1007

def err_messages : List String :=
  ["Undefined error", "Unknown error", "Internal error", "No such file", "No such variable", "Malformed expression",
    "No authorization", "Cannot read file", "Not Implemented", ""]

/-- The code, an `int`, and the message. -/
structure Error where
  _error_code : Int
  _error_message : Text
  deriving Repr, DecidableEq

namespace Error

def OK (e : Error) : Bool :=
  e._error_code = undefined_error ∧ e._error_message = [] ∨ e._error_code ≠ undefined_error ∧ e._error_message ≠ []

/-- The message is that of the code when there is none. -/
def set_error_code (e : Error) (ec : Int) : Error where
  _error_code := ec
  _error_message :=
    let place := if e._error_message = [] ∧ undefined_error < ec ∧ ec ≤ cannot_read_file then (ec - undefined_error).toNat else 0
    (err_messages[place]?.getD "").toList

def set_error_message (e : Error) (msg : Text) : Error := { e with _error_message := msg }

end Error

/-! ## Printing -/

def c_str (s : Text) : Text := s.takeWhile fun c => decide (c ≠ '\x00')

/-- The first and the last character are double quotes. One quote is both. -/
def Wrapped (message : Text) : Prop := message.head? = some '"' ∧ message.getLast? = some '"'

instance (message : Text) : Decidable (Wrapped message) := inferInstanceAs (Decidable (_ ∧ _))

def printMessage (message : Text) : Text := if Wrapped message then c_str message else '"' :: c_str message ++ ['"']

/-- `Error::print`, for a file and for a stream. -/
def print (e : Error) : Text :=
  "Error \x7b\n    code = ".toList ++ (showInt e._error_code ++ (";\n    message = ".toList ++
    (printMessage e._error_message ++ ";\n\x7d;\n".toList)))

/-! ## The scanner -/

inductive Token where
  | SCAN_ERROR
  | SCAN_CODE
  | SCAN_MSG
  | SCAN_INT (integer : Int)
  | SCAN_STR (string : Text)
  | sign (c : Char)
  deriving Repr, DecidableEq

inductive Start where
  | initial
  | quote
  | comment
  deriving Repr, DecidableEq

structure Scanner where
  start : Start
  error_line_num : Nat
  start_line : Nat
  deriving Repr, DecidableEq

/-- What one rule does: it ends the text, it finds a quote that is open at its end, or it goes on, with a token
or without. -/
inductive Found where
  | end_ (s : Scanner)
  | unterminated (s : Scanner)
  | on (token : Option Token) (s : Scanner) (rest : Text)

def spellings : List (Text × Token) :=
  [("error".toList, .SCAN_ERROR), ("Error".toList, .SCAN_ERROR), ("ERROR".toList, .SCAN_ERROR),
    ("code".toList, .SCAN_CODE), ("Code".toList, .SCAN_CODE), ("CODE".toList, .SCAN_CODE),
    ("message".toList, .SCAN_MSG), ("Message".toList, .SCAN_MSG), ("MESSAGE".toList, .SCAN_MSG)]

def signs : List Char := ['\x7b', '\x7d', ';', '=']

/-- The rules of a quote, with what has been read of it. A backslash at the end of a line is echoed with
all in front of it, which is then no part of the token. -/
def quoted (taken : Text) : Text → Option (Text × Text)
  | [] => none
  | c :: cs =>
    if c = '"' then some (taken ++ ['"'], cs)
    else if c = '\\' then
      match cs with
      | [] => none
      | d :: ds => if d = '\n' then quoted ['\n'] ds else quoted (taken ++ ['\\', d]) ds
    else quoted (taken ++ [c]) cs

/-- The lines that end in a text. -/
def lines (s : Scanner) (text : Text) : Scanner := { s with error_line_num := s.error_line_num + text.count '\n' }

/-- A quote, as a token or open. -/
def quote (s : Scanner) (taken text : Text) : Found :=
  match quoted taken text with
  | none => .unterminated { lines s text with start := .quote }
  | some (string, rest) =>
    .on (some (.SCAN_STR string)) { lines s (text.take (text.length - rest.length)) with start := .initial } rest

/-- The rules of a comment. -/
def comment (s : Scanner) (text : Text) : Found :=
  match text.dropWhile (· ≠ '\n') with
  | [] => .end_ { s with error_line_num := 1 }
  | _ :: rest => .on none { s with start := .initial, error_line_num := s.error_line_num + 1 } rest

/-- The rules that need no start condition. -/
def initial (s : Scanner) : Text → Found
  | [] => .end_ { s with error_line_num := 1 }
  | c :: cs =>
    match spellings.find? (·.1.isPrefixOf (c :: cs)) with
    | some (word, token) => .on (some token) s ((c :: cs).drop word.length)
    | none =>
      if c.isDigit then .on (some (.SCAN_INT (atoi ((c :: cs).takeWhile Char.isDigit)))) s (cs.dropWhile Char.isDigit)
      else if c ∈ signs then .on (some (.sign c)) s cs
      else if c = '\n' then .on none { s with error_line_num := s.error_line_num + 1 } cs
      else if c = '#' then .on none { s with start := .comment } cs
      else if c = '"' then quote { s with start_line := s.error_line_num } ['"'] cs
      -- blanks, what is not allowed, and what is echoed
      else .on none s cs

/-- What one rule of the scanner does. -/
def rule (s : Scanner) (text : Text) : Found :=
  match s.start with
  | .initial => initial s text
  | .quote => quote s [] text
  | .comment => comment s text

theorem quoted_shorter {taken text string rest : Text} (read : quoted taken text = some (string, rest)) :
    rest.length < text.length := by
  fun_induction quoted taken text with
  | case1 => cases read
  | case2 taken cs =>
      cases read
      exact Nat.lt_succ_self _
  | case3 => cases read
  | case4 taken none_ ds ih =>
      have shorter := ih read
      simp only [List.length_cons]
      omega
  | case5 taken none_ d ds other ih =>
      have shorter := ih read
      simp only [List.length_cons]
      omega
  | case6 taken c cs noQuote noBackslash ih =>
      have shorter := ih read
      simp only [List.length_cons]
      omega

theorem quote_shorter {s s' : Scanner} {taken text rest : Text} {token : Option Token}
    (found : quote s taken text = .on token s' rest) : rest.length < text.length := by
  rw [quote] at found
  cases read : quoted taken text with
  | none =>
      rw [read] at found
      cases found
  | some p =>
      obtain ⟨string, rest'⟩ := p
      rw [read] at found
      cases found
      exact quoted_shorter read

theorem spellings_ne_nil {p : Text × Token} (mem : p ∈ spellings) : p.1 ≠ [] := by
  have all : spellings.all (fun p => !p.1.isEmpty) = true := rfl
  simpa using List.all_eq_true.mp all p mem

theorem comment_shorter {s s' : Scanner} {text rest : Text} {token : Option Token}
    (found : comment s text = .on token s' rest) : rest.length < text.length := by
  have shorter := (List.dropWhile_suffix (l := text) (· ≠ '\n')).length_le
  rw [comment] at found
  cases behind : text.dropWhile (· ≠ '\n') with
  | nil =>
      rw [behind] at found
      cases found
  | cons c cs =>
      rw [behind] at found shorter
      cases found
      rw [List.length_cons] at shorter
      omega

theorem initial_shorter {s s' : Scanner} {text rest : Text} {token : Option Token}
    (found : initial s text = .on token s' rest) : rest.length < text.length := by
  cases text with
  | nil => cases found
  | cons c cs =>
      have digits := (List.dropWhile_suffix (l := cs) Char.isDigit).length_le
      rw [initial] at found
      rw [List.length_cons]
      cases word : spellings.find? (·.1.isPrefixOf (c :: cs)) with
      | some p =>
          have filled := List.length_pos_of_ne_nil (spellings_ne_nil (List.mem_of_find?_eq_some word))
          rw [word] at found
          cases found
          rw [List.length_drop, List.length_cons]
          omega
      | none =>
          rw [word] at found
          simp only at found
          split_ifs at found
          next =>
            cases found
            omega
          next =>
            cases found
            omega
          next =>
            cases found
            omega
          next =>
            cases found
            omega
          next =>
            have shorter := quote_shorter found
            omega
          next =>
            cases found
            omega

/-- Each rule takes some of the text. -/
theorem rule_shorter {s s' : Scanner} {text rest : Text} {token : Option Token} (found : rule s text = .on token s' rest) :
    rest.length < text.length := by
  rw [rule] at found
  cases start : s.start with
  | initial =>
      rw [start] at found
      exact initial_shorter found
  | quote =>
      rw [start] at found
      exact quote_shorter found
  | comment =>
      rw [start] at found
      exact comment_shorter found

/-! ## The grammar -/

/-- Where the parser is in the production of an `error_object`. -/
inductive Place where
  | error_object | brace | code | code_equals | code_int | code_end (integer : Int) | description | message_equals
  | message_str | message_end | close | semicolon | finish
  deriving Repr, DecidableEq

/-- The next token, with the actions. -/
def shift : Place → Token → Error → Option (Place × Error)
  | .error_object, .SCAN_ERROR, e => some (.brace, e)
  | .brace, .sign '\x7b', e => some (.code, e)
  | .code, .SCAN_CODE, e => some (.code_equals, e)
  | .code_equals, .sign '=', e => some (.code_int, e)
  | .code_int, .SCAN_INT integer, e => some (.code_end integer, e)
  | .code_end integer, .sign ';', e => some (.description, e.set_error_code integer)
  | .description, .SCAN_MSG, e => some (.message_equals, e)
  | .description, .sign '\x7d', e => some (.semicolon, e)
  | .message_equals, .sign '=', e => some (.message_str, e)
  | .message_str, .SCAN_STR string, e => some (.message_end, e.set_error_message (c_str string))
  | .message_end, .sign ';', e => some (.close, e)
  | .close, .sign '\x7d', e => some (.semicolon, e)
  | .semicolon, .sign ';', e => some (.finish, e)
  | _, _, _ => none

/-- `Errorerror` -/
def syntaxError (s : Scanner) : String := "syntax error line: " ++ toString s.error_line_num ++ "\n"

def unterminatedQuote (s : Scanner) : String :=
  "Error scanning the error response: Unterminated quote (starts on line " ++ toString s.start_line ++ ")\n"

/-- `Errorparse`, with the object and the scanner as they are at the end. -/
def Errorparse (place : Place) (e : Error) (s : Scanner) (text : Text) : Except String Unit × Error × Scanner :=
  match _found : rule s text with
  | .end_ s => (if place = .finish then .ok () else .error (syntaxError s), e, s)
  | .unterminated s => (.error (unterminatedQuote s), e, s)
  | .on none s rest => Errorparse place e s rest
  | .on (some token) s rest =>
    match shift place token e with
    | some (place, e) => Errorparse place e s rest
    | none => (.error (syntaxError s), e, s)
termination_by text.length
decreasing_by
  all_goals exact rule_shorter _found

/-- `Error::parse` into an object. An error is thrown as an `InternalErr` with that message. -/
def parse (object : Error) (s : Scanner) (text : Text) : Except String Bool × Error × Scanner :=
  match Errorparse .error_object object s text with
  | (.ok _, e, s) => (.ok e.OK, e, s)
  | (.error msg, e, s) => (.error msg, e, s)

end Libdap.Dap2.ErrorText
