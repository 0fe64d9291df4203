import Libdap.Dap2.ErrorText

/-! # Error objects that are parsed again

An error comes back from its text when the scanner finds the end of the message where the printer put it.
-/

namespace Libdap.Dap2.ErrorText

open Text (showInt atoi digits_cases atoi_showInt)

/-- Each double quote, and each backslash, is behind a backslash of its own, which does not end a line. -/
inductive Clean : Text → Prop where
  | nil : Clean []
  | plain {c : Char} {cs : Text} : c ≠ '"' → c ≠ '\\' → Clean cs → Clean (c :: cs)
  | escaped {d : Char} {cs : Text} : d ≠ '\n' → Clean cs → Clean ('\\' :: d :: cs)

/-! ## Quotes -/

theorem quoted_quote (taken cs : Text) : quoted taken ('"' :: cs) = some (taken ++ ['"'], cs) := by
  rw [quoted.eq_def]
  rfl

theorem quoted_plain {c : Char} (noQuote : c ≠ '"') (noBackslash : c ≠ '\\') (taken cs : Text) :
    quoted taken (c :: cs) = quoted (taken ++ [c]) cs := by
  rw [quoted.eq_def]
  simp only [if_neg noQuote, if_neg noBackslash]

theorem quoted_escaped {d : Char} (noLine : d ≠ '\n') (taken cs : Text) :
    quoted taken ('\\' :: d :: cs) = quoted (taken ++ ['\\', d]) cs := by
  rw [quoted.eq_def]
  exact if_neg noLine

/-- A clean text is read up to the quote behind it. -/
theorem quoted_clean {x : Text} (clean : Clean x) (taken rest : Text) :
    quoted taken (x ++ '"' :: rest) = some (taken ++ x ++ ['"'], rest) := by
  induction clean generalizing taken with
  | nil => rw [List.nil_append, quoted_quote, List.append_nil]
  | plain noQuote noBackslash _ ih =>
      rw [List.cons_append, quoted_plain noQuote noBackslash, ih]
      simp
  | escaped noLine _ ih =>
      rw [List.cons_append, List.cons_append, quoted_escaped noLine, ih]
      simp

/-- What is read is clean from the start on, or from a line on that is behind a backslash. -/
theorem quoted_cases {taken text string rest : Text} (read : quoted taken text = some (string, rest)) :
    ∃ x, Clean x ∧ (text = x ++ '"' :: rest ∧ string = taken ++ x ++ ['"'] ∨ string = '\n' :: x ++ ['"']) := by
  fun_induction quoted taken text with
  | case1 => cases read
  | case2 taken cs =>
      cases read
      exact ⟨[], .nil, .inl ⟨rfl, by simp⟩⟩
  | case3 => cases read
  | case4 taken cs _ ih =>
      obtain ⟨x, clean, ⟨-, string_⟩ | string_⟩ := ih read
      · exact ⟨x, clean, .inr string_⟩
      · exact ⟨x, clean, .inr string_⟩
  | case5 taken d ds noLine _ ih =>
      obtain ⟨x, clean, ⟨text_, string_⟩ | string_⟩ := ih read
      · exact ⟨'\\' :: d :: x, .escaped noLine clean, .inl ⟨by simp [text_], by simp [string_]⟩⟩
      · exact ⟨x, clean, .inr string_⟩
  | case6 taken c cs noQuote noBackslash ih =>
      obtain ⟨x, clean, ⟨text_, string_⟩ | string_⟩ := ih read
      · exact ⟨c :: x, .plain noQuote noBackslash clean, .inl ⟨by simp [text_], by simp [string_]⟩⟩
      · exact ⟨x, clean, .inr string_⟩

theorem mem_of_quoted {taken text string rest : Text} (read : quoted taken text = some (string, rest)) {c : Char}
    (mem : c ∈ string) : c ∈ taken ∨ c ∈ text := by
  fun_induction quoted taken text with
  | case1 => cases read
  | case2 taken cs =>
      cases read
      grind
  | case3 => cases read
  | case4 taken cs _ ih => grind
  | case5 taken d ds noLine _ ih => grind
  | case6 taken c' cs noQuote noBackslash ih => grind

/-! ## Steps of the parser -/

section

variable {place place' : Place} {e e' : Error} {s s' : Scanner} {text rest : Text} {token : Token}

theorem Errorparse_skip (found : rule s text = .on none s' rest) :
    Errorparse place e s text = Errorparse place e s' rest := by
  rw [Errorparse]
  split <;> simp_all

theorem Errorparse_token (found : rule s text = .on (some token) s' rest) (next : shift place token e = some (place', e')) :
    Errorparse place e s text = Errorparse place' e' s' rest := by
  rw [Errorparse]
  split <;> simp_all

theorem Errorparse_stuck (found : rule s text = .on (some token) s' rest) (next : shift place token e = none) :
    Errorparse place e s text = (.error (syntaxError s'), e, s') := by
  rw [Errorparse]
  split <;> simp_all

theorem Errorparse_unterminated (found : rule s text = .unterminated s') :
    Errorparse place e s text = (.error (unterminatedQuote s'), e, s') := by
  rw [Errorparse]
  split <;> simp_all

theorem Errorparse_end (found : rule s text = .end_ s') : Errorparse .finish e s text = (.ok (), e, s') := by
  rw [Errorparse]
  split <;> simp_all

end

/-! ## The printed text -/

section

variable {line start_line : Nat} {e : Error}

/-- A number ends before a sign. -/
theorem rule_number {code : Int} (positive : 0 ≤ code) (s : Scanner) (start : s.start = .initial) (rest : Text) :
    rule s (showInt code ++ ';' :: rest) = .on (some (.SCAN_INT code)) s (';' :: rest) := by
  have digits : ∀ c ∈ Nat.toDigits 10 code.natAbs, c.isDigit = true :=
    fun c mem => Nat.isDigit_of_mem_toDigits (by decide) (by decide) mem
  obtain ⟨c, cs, shown, digit, -⟩ := digits_cases code.natAbs
  have shows : showInt code = c :: cs := by
    rw [showInt, if_neg (by omega), shown]
  have inside : ∀ d ∈ cs, d.isDigit = true := by
    intro d mem
    exact digits d (by rw [shown]; exact List.mem_cons_of_mem _ mem)
  have noWord : spellings.find? (·.1.isPrefixOf (c :: (cs ++ ';' :: rest))) = none := by
    have letters : spellings.all (fun p => p.1.head?.any fun c => !c.isDigit) = true := rfl
    apply List.find?_eq_none.mpr
    intro p mem starts
    have letter := List.all_eq_true.mp letters p mem
    obtain ⟨word, token⟩ := p
    cases word with
    | nil => cases letter
    | cons d word =>
        obtain ⟨same, -⟩ := List.cons_prefix_cons.mp (List.isPrefixOf_iff_prefix.mp starts)
        simp [same, digit] at letter
  have taken : (c :: (cs ++ ';' :: rest)).takeWhile Char.isDigit = c :: cs := by
    rw [List.takeWhile_cons, if_pos digit, List.takeWhile_append_of_pos inside, List.takeWhile_cons, if_neg (by decide),
      List.append_nil]
  have left : (cs ++ ';' :: rest).dropWhile Char.isDigit = ';' :: rest := by
    rw [List.dropWhile_append_of_pos inside, List.dropWhile_cons, if_neg (by decide)]
  have value : atoi (c :: cs) = code := by
    rw [← shows, atoi_showInt]
  rw [rule, start, shows, List.cons_append]
  simp only [initial, noWord, if_pos digit, taken, left, value]

/-- A line of the text, up to its first word. -/
theorem Errorparse_line {place : Place} {rest : Text} :
    Errorparse place e ⟨.initial, line, start_line⟩ ('\n' :: ' ' :: ' ' :: ' ' :: ' ' :: rest) =
      Errorparse place e ⟨.initial, line + 1, start_line⟩ rest := by
  apply (Errorparse_skip rfl).trans
  apply (Errorparse_skip rfl).trans
  apply (Errorparse_skip rfl).trans
  apply (Errorparse_skip rfl).trans
  exact Errorparse_skip rfl

/-- The parser gets to the message. -/
theorem Errorparse_print {object : Error} (positive : 0 ≤ e._error_code) :
    Errorparse .error_object object ⟨.initial, line, start_line⟩ (print e) =
      Errorparse .message_str (object.set_error_code e._error_code) ⟨.initial, line + 2, start_line⟩
        (printMessage e._error_message ++ ";\n\x7d;\n".toList) := by
  have front : print e = 'E' :: 'r' :: 'r' :: 'o' :: 'r' :: ' ' :: '\x7b' :: '\n' :: ' ' :: ' ' :: ' ' :: ' ' ::
      'c' :: 'o' :: 'd' :: 'e' :: ' ' :: '=' :: ' ' :: (showInt e._error_code ++ ';' :: '\n' :: ' ' :: ' ' :: ' ' :: ' ' ::
      'm' :: 'e' :: 's' :: 's' :: 'a' :: 'g' :: 'e' :: ' ' :: '=' :: ' ' ::
      (printMessage e._error_message ++ ";\n\x7d;\n".toList)) := rfl
  rw [front]
  generalize printMessage e._error_message ++ ";\n\x7d;\n".toList = behind
  apply (Errorparse_token rfl rfl).trans
  apply (Errorparse_skip rfl).trans
  apply (Errorparse_token rfl rfl).trans
  apply Errorparse_line.trans
  apply (Errorparse_token rfl rfl).trans
  apply (Errorparse_skip rfl).trans
  apply (Errorparse_token rfl rfl).trans
  apply (Errorparse_skip rfl).trans
  apply (Errorparse_token (rule_number positive _ rfl _) rfl).trans
  apply (Errorparse_token rfl rfl).trans
  apply Errorparse_line.trans
  apply (Errorparse_token rfl rfl).trans
  apply (Errorparse_skip rfl).trans
  apply (Errorparse_token rfl rfl).trans
  exact Errorparse_skip rfl

/-- Behind the message the text ends as it should. -/
theorem Errorparse_tail : Errorparse .message_end e ⟨.initial, line, start_line⟩ ";\n\x7d;\n".toList =
    (.ok (), e, ⟨.initial, 1, start_line⟩) := by
  apply (Errorparse_token rfl rfl).trans
  apply (Errorparse_skip rfl).trans
  apply (Errorparse_token rfl rfl).trans
  apply (Errorparse_token rfl rfl).trans
  apply (Errorparse_skip rfl).trans
  exact Errorparse_end rfl

/-- Behind the message the object stays as it is. -/
theorem Errorparse_keeps {place : Place} (e : Error) (s : Scanner) (text : Text)
    (behind : place ∈ [Place.message_end, .close, .semicolon, .finish]) : (Errorparse place e s text).2.1 = e := by
  have keeps : ∀ place ∈ [Place.message_end, .close, .semicolon, .finish], ∀ token e place' e',
      shift place token e = some (place', e') → place' ∈ [Place.message_end, .close, .semicolon, .finish] ∧ e' = e := by
    intro place mem token e place' e' next
    simp only [List.mem_cons, List.not_mem_nil, or_false] at mem
    unfold shift at next
    split at next <;> grind
  fun_induction Errorparse place e s text with
  | case1 => rfl
  | case2 => rfl
  | case3 place e s text s' rest found ih => exact ih behind
  | case4 place e s text token s' rest found place' e' next ih =>
      obtain ⟨behind', rfl⟩ := keeps place behind token e place' e' next
      exact ih behind'
  | case5 => rfl

end

/-! ## Messages -/

theorem not_mem_c_str (s : Text) : '\x00' ∉ c_str s := by
  intro mem
  exact of_decide_eq_true (List.all_eq_true.mp (List.all_takeWhile (p := fun c => decide (c ≠ '\x00')) (l := s)) _ mem) rfl

theorem c_str_eq_self {s : Text} (noNull : '\x00' ∉ s) : c_str s = s := by
  apply List.takeWhile_eq_self_iff.mpr
  intro c mem
  apply decide_eq_true
  intro same
  exact noNull (same ▸ mem)

theorem wrapped_of_quotes (x : Text) : Wrapped ('"' :: x ++ ['"']) := by
  constructor
  · rfl
  · exact List.getLast?_concat

theorem printMessage_quotes {x : Text} (noNull : '\x00' ∉ x) : printMessage ('"' :: x ++ ['"']) = '"' :: x ++ ['"'] := by
  rw [printMessage, if_pos (wrapped_of_quotes x)]
  apply c_str_eq_self
  simpa using noNull

theorem Clean.not_wrapped {x : Text} (clean : Clean x) : ¬ Wrapped x := by
  intro wrapped
  cases clean with
  | nil => cases wrapped.1
  | plain noQuote _ _ => exact noQuote (Option.some.inj wrapped.1)
  | escaped _ _ => exact absurd (Option.some.inj wrapped.1) (by decide)

/-- The quote that opens the message. -/
theorem printMessage_cons (message : Text) : ∃ rest, printMessage message = '"' :: rest := by
  rw [printMessage]
  split
  next wrapped =>
    cases message with
    | nil => cases wrapped.1
    | cons c cs =>
        obtain rfl := Option.some.inj wrapped.1
        exact ⟨_, List.takeWhile_cons_of_pos (by decide)⟩
  next => exact ⟨_, rfl⟩

theorem not_mem_printMessage (message : Text) : '\x00' ∉ printMessage message := by
  rw [printMessage]
  split
  next => exact not_mem_c_str message
  next => simpa using not_mem_c_str message

/-- The same message, but for one pair of double quotes around it. -/
def SameMessage (a b : Text) : Prop := a = b ∨ a = '"' :: b ++ ['"'] ∨ b = '"' :: a ++ ['"']

/-- The text that is printed parses to the same code and message, and what is parsed prints as the same text. -/
def Symmetrical (object : Error) (s : Scanner) (e : Error) : Prop :=
  ∃ e' s', parse object s (print e) = (.ok true, e', s') ∧ e'._error_code = e._error_code ∧
    SameMessage e'._error_message e._error_message ∧ print e' = print e

/-- A message without a null that is clean, with or without a pair of double quotes around it. -/
def Legible (message : Text) : Prop :=
  '\x00' ∉ message ∧ (Clean message ∨ ∃ x, Clean x ∧ message = '"' :: x ++ ['"'])

theorem Legible.printed {message : Text} (legible : Legible message) :
    ∃ x, Clean x ∧ '\x00' ∉ x ∧ printMessage message = '"' :: x ++ ['"'] ∧ SameMessage ('"' :: x ++ ['"']) message := by
  obtain ⟨noNull, clean | ⟨x, clean, rfl⟩⟩ := legible
  · refine ⟨message, clean, noNull, ?_, .inr (.inl rfl)⟩
    rw [printMessage, if_neg clean.not_wrapped, c_str_eq_self noNull]
  · have noNull' : '\x00' ∉ x := by
      intro mem
      exact noNull (by simp [mem])
    exact ⟨x, clean, noNull', printMessage_quotes noNull', .inl rfl⟩

theorem legible_of_printed {message x : Text} (noNull : '\x00' ∉ message) (clean : Clean x)
    (printed : printMessage message = '"' :: x ++ ['"']) : Legible message := by
  refine ⟨noNull, ?_⟩
  rw [printMessage, c_str_eq_self noNull] at printed
  split at printed
  next => exact .inr ⟨x, clean, printed⟩
  next =>
    left
    have same : message = x := by simpa using printed
    rw [same]
    exact clean

theorem print_inj {e e' : Error} (code : e'._error_code = e._error_code) (same : print e' = print e) :
    printMessage e'._error_message = printMessage e._error_message := by
  have texts := same
  unfold print at texts
  rw [code] at texts
  have behindFirst := List.append_cancel_left texts
  have behindCode := List.append_cancel_left behindFirst
  have behindSecond := List.append_cancel_left behindCode
  exact List.append_cancel_right behindSecond

theorem print_congr {e e' : Error} (code : e'._error_code = e._error_code)
    (message : printMessage e'._error_message = printMessage e._error_message) : print e' = print e := by
  unfold print
  rw [code, message]

section

variable {object e e' : Error} {line start_line : Nat} {s s' : Scanner} {rest : Text}

/-- The message of the object is what is read of the printed one. -/
theorem message_of_parse (positive : 0 ≤ e._error_code) (opens : printMessage e._error_message = '"' :: rest)
    (parsed : parse object ⟨.initial, line, start_line⟩ (print e) = (.ok true, e', s')) :
    ∃ string left, quoted ['"'] (rest ++ ";\n\x7d;\n".toList) = some (string, left) ∧ e'._error_message = c_str string := by
  rw [parse, Errorparse_print positive, opens, List.cons_append] at parsed
  have opened : rule ⟨.initial, line + 2, start_line⟩ ('"' :: (rest ++ ";\n\x7d;\n".toList)) =
      quote ⟨.initial, line + 2, line + 2⟩ ['"'] (rest ++ ";\n\x7d;\n".toList) := rfl
  cases read : quoted ['"'] (rest ++ ";\n\x7d;\n".toList) with
  | none =>
      rw [quote, read] at opened
      rw [Errorparse_unterminated opened] at parsed
      cases (Prod.mk.inj parsed).1
  | some p =>
      obtain ⟨string, left⟩ := p
      rw [quote, read] at opened
      rw [Errorparse_token opened rfl] at parsed
      refine ⟨string, left, rfl, ?_⟩
      have keeps := fun s => Errorparse_keeps ((object.set_error_code e._error_code).set_error_message (c_str string)) s left
        (List.mem_cons_self (a := Place.message_end))
      split at parsed
      next ended =>
        have kept := (congrArg (fun result => result.2.1) ended).symm.trans (keeps _)
        have same := (Prod.mk.inj (Prod.mk.inj parsed).2).1
        rw [← same]
        exact congrArg Error._error_message kept
      next => cases (Prod.mk.inj parsed).1

/-- A printed message that is clean is read to its end. -/
theorem parse_clean (object : Error) (line start_line : Nat) (positive : 0 ≤ e._error_code) {x : Text} (clean : Clean x)
    (printed : printMessage e._error_message = '"' :: x ++ ['"']) :
    ∃ s', parse object ⟨.initial, line, start_line⟩ (print e) =
      (.ok (Error.OK ⟨e._error_code, c_str ('"' :: x ++ ['"'])⟩), ⟨e._error_code, c_str ('"' :: x ++ ['"'])⟩, s') := by
  have read := quoted_clean clean ['"'] ";\n\x7d;\n".toList
  have text : printMessage e._error_message ++ ";\n\x7d;\n".toList = '"' :: (x ++ '"' :: ";\n\x7d;\n".toList) := by
    rw [printed]
    simp
  have opened : rule ⟨.initial, line + 2, start_line⟩ ('"' :: (x ++ '"' :: ";\n\x7d;\n".toList)) =
      quote ⟨.initial, line + 2, line + 2⟩ ['"'] (x ++ '"' :: ";\n\x7d;\n".toList) := rfl
  rw [quote, read] at opened
  rw [parse, Errorparse_print positive, text, Errorparse_token opened rfl, Errorparse_tail]
  exact ⟨_, rfl⟩

/-- Where the scanner is not in its initial state the text is no `error_object`. -/
theorem parse_elsewhere (other : s.start ≠ .initial) : (parse object s (print e)).1 ≠ .ok true := by
  have stops (msg : String) (s' : Scanner) (stuck : Errorparse .error_object object s (print e) = (.error msg, object, s')) :
      (parse object s (print e)).1 ≠ .ok true := by
    rw [parse, stuck]
    intro same
    cases same
  obtain ⟨start, line, start_line⟩ := s
  cases start with
  | initial => exact absurd rfl other
  | quote =>
      have opened : rule ⟨.quote, line, start_line⟩ (print e) = quote ⟨.quote, line, start_line⟩ [] (print e) := rfl
      cases read : quoted [] (print e) with
      | none =>
          rw [quote, read] at opened
          exact stops _ _ (Errorparse_unterminated opened)
      | some p =>
          rw [quote, read] at opened
          exact stops _ _ (Errorparse_stuck opened rfl)
  | comment =>
      have behind : ∃ rest, print e = "Error \x7b".toList ++ '\n' :: ' ' :: ' ' :: ' ' :: ' ' :: 'c' :: 'o' :: 'd' :: 'e' :: rest :=
        ⟨_, rfl⟩
      obtain ⟨rest, text⟩ := behind
      rw [text] at stops ⊢
      have skipped : rule ⟨.comment, line, start_line⟩
          ("Error \x7b".toList ++ '\n' :: ' ' :: ' ' :: ' ' :: ' ' :: 'c' :: 'o' :: 'd' :: 'e' :: rest) =
          .on none ⟨.initial, line + 1, start_line⟩ (' ' :: ' ' :: ' ' :: ' ' :: 'c' :: 'o' :: 'd' :: 'e' :: rest) := rfl
      apply stops
      apply (Errorparse_skip skipped).trans
      apply (Errorparse_skip rfl).trans
      apply (Errorparse_skip rfl).trans
      apply (Errorparse_skip rfl).trans
      apply (Errorparse_skip rfl).trans
      exact Errorparse_stuck rfl rfl

end

theorem SameMessage.noNull {a b : Text} (same : SameMessage a b) (noNull : '\x00' ∉ a) : '\x00' ∉ b := by
  obtain rfl | rfl | rfl := same
  · exact noNull
  · intro mem
    exact noNull (by simp [mem])
  · simpa using noNull

/-- What comes back and prints as the same text was legible. -/
theorem legible_of_symmetrical {object e : Error} {line start_line : Nat} (positive : 0 ≤ e._error_code)
    (symmetrical : Symmetrical object ⟨.initial, line, start_line⟩ e) : Legible e._error_message := by
  obtain ⟨e', s', parsed, code, same, prints⟩ := symmetrical
  obtain ⟨rest, opens⟩ := printMessage_cons e._error_message
  obtain ⟨string, left, read, message⟩ := message_of_parse positive opens parsed
  have printed : printMessage (c_str string) = '"' :: rest := by
    rw [← opens, ← message]
    exact print_inj code prints
  have noNull : '\x00' ∉ e._error_message := by
    apply same.noNull
    rw [message]
    exact not_mem_c_str string
  have noNull' : '\x00' ∉ string := by
    intro mem
    obtain quote | there := mem_of_quoted read mem
    · exact absurd quote (by decide)
    · obtain message_ | tail := List.mem_append.mp there
      · have inside := not_mem_printMessage e._error_message
        rw [opens] at inside
        exact inside (List.mem_cons_of_mem _ message_)
      · exact absurd tail (by decide)
  rw [c_str_eq_self noNull'] at printed
  obtain ⟨x, clean, ⟨-, string_⟩ | string_⟩ := quoted_cases read
  · have inside : '\x00' ∉ x := by
      intro mem
      exact noNull' (by simp [string_, mem])
    have quotes : string = '"' :: x ++ ['"'] := string_
    rw [quotes, printMessage_quotes inside, ← opens] at printed
    exact legible_of_printed noNull clean printed.symm
  · -- the quote that closes the message would close what is in it
    have other : ¬ Wrapped string := by
      intro wrapped
      rw [string_] at wrapped
      exact absurd (Option.some.inj wrapped.1) (by decide)
    rw [printMessage, if_neg other, c_str_eq_self noNull', string_] at printed
    have text : rest ++ ";\n\x7d;\n".toList = ('\n' :: x) ++ '"' :: '"' :: ";\n\x7d;\n".toList := by
      rw [← (List.cons.inj printed).2]
      simp
    have again := quoted_clean (.plain (by decide) (by decide) clean) ['"'] ('"' :: ";\n\x7d;\n".toList) (x := '\n' :: x)
    rw [text, again, string_] at read
    have start := congrArg List.head? (Prod.mk.inj (Option.some.inj read)).1
    exact absurd (Option.some.inj start) (by decide)

/-- An error comes back from its text if and only if the scanner starts in its initial state and the message is legible. -/
theorem symmetrical_iff (object : Error) (s : Scanner) (e : Error) (positive : 0 ≤ e._error_code)
    (defined : e._error_code ≠ undefined_error) :
    Symmetrical object s e ↔ s.start = .initial ∧ Legible e._error_message := by
  obtain ⟨start, line, start_line⟩ := s
  constructor
  · intro symmetrical
    have initial_ : start = .initial := by
      by_contra other
      obtain ⟨e', s', parsed, -⟩ := symmetrical
      exact parse_elsewhere (s := ⟨start, line, start_line⟩) other (congrArg Prod.fst parsed)
    subst initial_
    exact ⟨rfl, legible_of_symmetrical positive symmetrical⟩
  · rintro ⟨initial_, legible⟩
    obtain rfl : start = .initial := initial_
    obtain ⟨x, clean, noNull, printed, same⟩ := legible.printed
    obtain ⟨s', parsed⟩ := parse_clean object line start_line positive clean printed
    have whole : c_str ('"' :: x ++ ['"']) = '"' :: x ++ ['"'] := by
      apply c_str_eq_self
      simpa using noNull
    have ok : Error.OK ⟨e._error_code, '"' :: x ++ ['"']⟩ = true := by
      apply decide_eq_true
      exact .inr ⟨defined, by simp⟩
    rw [whole, ok] at parsed
    exact ⟨_, s', parsed, rfl, same, print_congr rfl ((printMessage_quotes noNull).trans printed.symm)⟩

/-- A quote that has a backslash comes back. -/
theorem symmetrical_escaped : Symmetrical ⟨undefined_error, []⟩ ⟨.initial, 1, 0⟩ ⟨1003, ['\\', '"', '#', '\n']⟩ := by
  have clean : Clean ['\\', '"', '#', '\n'] :=
    .escaped (by decide) (.plain (by decide) (by decide) (.plain (by decide) (by decide) .nil))
  have symmetrical := (symmetrical_iff ⟨undefined_error, []⟩ ⟨.initial, 1, 0⟩ ⟨1003, ['\\', '"', '#', '\n']⟩ (by decide) (by decide)).mpr
  exact symmetrical ⟨rfl, by decide, .inl clean⟩

/-- One in the middle of a message, without a backslash, does not. -/
theorem quote_inside_refused : ¬ ∀ (object : Error) (s : Scanner) (e : Error), 0 ≤ e._error_code →
    e._error_code ≠ undefined_error → e._error_message ≠ [] → s.start = .initial → Symmetrical object s e := by
  intro claimed
  have symmetrical := claimed ⟨undefined_error, []⟩ ⟨.initial, 1, 0⟩ ⟨1001, ['a', '"', 'b']⟩ (by decide) (by decide) (by decide) rfl
  obtain ⟨-, clean | ⟨x, clean, wrapped⟩⟩ := legible_of_symmetrical (by decide) symmetrical
  · cases clean with
    | plain _ _ behind =>
        cases behind with
        | plain noQuote _ _ => exact noQuote rfl
  · exact absurd (List.cons.inj wrapped).1 (by decide)

end Libdap.Dap2.ErrorText
