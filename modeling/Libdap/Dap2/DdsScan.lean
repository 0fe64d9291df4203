import Libdap.Dap2.DdsText
import Libdap.Foundation.Ints

/-! # What the scanner makes of a printed DDS -/

namespace Libdap.Dap2.Text

open Dap4 (Name www2id)

/-- A name, without an escape of its own. -/
def IsName (n : Name) : Prop := n ≠ [] ∧ Bytes n ∧ '%' ∉ n

instance (n : Name) : Decidable (IsName n) := inferInstanceAs (Decidable (_ ∧ _))

/-- What `id2www` and numbers are made of. -/
def IsWord (w : Name) : Prop := w ≠ [] ∧ ∀ c ∈ w, isFirst c = true

theorem isFirst_allowable : ∀ c ∈ allowable, isFirst c = true :=
  List.all_eq_true.mp (by decide +kernel)

theorem isFirst_hexDigit : ∀ n < 16, isFirst (hexDigit n) = true := by
  decide +kernel

theorem isFirst_id2www {n : Name} (bytes : Bytes n) : ∀ c ∈ id2www n, isFirst c = true := by
  induction n with
  | nil =>
      rw [id2www]
      exact List.forall_mem_nil _
  | cons c cs ih =>
      obtain ⟨byte, others⟩ := List.forall_mem_cons.mp bytes
      rw [id2www]
      split
      · rename_i allowed
        exact List.forall_mem_cons.mpr ⟨isFirst_allowable c allowed, ih others⟩
      · rw [hexstring, List.cons_append, List.cons_append, List.cons_append, List.nil_append]
        intro d mem
        rcases List.mem_cons.mp mem with rfl | mem
        · decide
        · rcases List.mem_cons.mp mem with rfl | mem
          · exact isFirst_hexDigit _ (by omega)
          · rcases List.mem_cons.mp mem with rfl | mem
            · exact isFirst_hexDigit _ (by omega)
            · exact ih others d mem

theorem id2www_ne_nil {n : Name} (some_ : n ≠ []) : id2www n ≠ [] := by
  cases n with
  | nil => exact absurd rfl some_
  | cons c cs =>
      rw [id2www]
      split <;> simp [hexstring]

theorem isWord_id2www {n : Name} (name : IsName n) : IsWord (id2www n) :=
  ⟨id2www_ne_nil name.1, isFirst_id2www name.2.1⟩

theorem isWord_showInt (n : Int) : IsWord (showInt n) := by
  have digits (m : Nat) : ∀ c ∈ Nat.toDigits 10 m, isFirst c = true := by
    intro c mem
    have digit := Nat.isDigit_of_mem_toDigits (by decide) (by decide) mem
    rw [isFirst, Char.isAlphanum, digit, Bool.or_true, Bool.true_or]
  rw [showInt]
  split
  · exact ⟨List.cons_ne_nil _ _, List.forall_mem_cons.mpr ⟨by decide, digits _⟩⟩
  · exact ⟨Nat.toDigits_ne_nil, digits _⟩

/-! ## Words -/

section

variable {w rest : Name} {c : Char} {ts : List Token} {m : Mode}

/-- One more character, in a word or between tokens. -/
theorem step_word (w : Name) (c : Char) : scanner.step (.word w) c =
    if w ≠ [] ∧ isNext c then ([], .word (w ++ [c]))
    else if w = "Data".toList ∧ c = ':' then ([], .dataColon)
    else after (flush w) c := rfl

theorem reads_more {w' : Name} (some_ : w ≠ []) (isFirsts : ∀ c ∈ w', isFirst c = true) :
    scanner.Reads (.word w) w' [] (.word (w ++ w')) := by
  induction w' generalizing w with
  | nil =>
      rw [List.append_nil]
      exact .nil _ _
  | cons c w' ih =>
      obtain ⟨first, others⟩ := List.forall_mem_cons.mp isFirsts
      have step : scanner.step (.word w) c = ([], .word (w ++ [c])) := by
        rw [step_word, if_pos ⟨some_, by rw [isNext, first, Bool.true_or]⟩]
      have more := ih (w := w ++ [c]) (List.append_ne_nil_of_left_ne_nil some_ _) others
      rw [List.append_assoc, List.cons_append, List.nil_append] at more
      exact .cons step more

theorem reads_word (word : IsWord w) : scanner.Reads (.word []) w [] (.word w) := by
  obtain ⟨some_, isFirsts⟩ := word
  cases w with
  | nil => exact absurd rfl some_
  | cons c cs =>
      obtain ⟨first, others⟩ := List.forall_mem_cons.mp isFirsts
      have step : scanner.step (.word []) c = ([], .word [c]) := by
        rw [step_word, if_neg fun both => both.1 rfl, if_neg fun both => absurd both.1 (by decide), after, begin_, if_pos first]
        rfl
      exact .cons step (reads_more (List.cons_ne_nil c []) others)

/-- A word that ends is a token. -/
theorem reads_token (word : IsWord w) (ends : isNext c = false) (plain : c ≠ ':')
    (more : scanner.Reads (.word []) (c :: rest) ts m) : scanner.Reads (.word []) (w ++ c :: rest) (tokenOf w :: ts) m := by
  have start : scanner.step (.word []) c = after [] c := by
    rw [step_word, if_neg fun both => both.1 rfl, if_neg fun both => plain both.2, flush, if_pos rfl]
  have ended : scanner.step (.word w) c = after [tokenOf w] c := by
    rw [step_word, if_neg fun both => Bool.false_ne_true (ends ▸ both.2), if_neg fun both => plain both.2, flush,
      if_neg word.1]
  have reads : scanner.Reads (.word w) (c :: rest) (tokenOf w :: ts) m := by
    rw [Transducer.Reads, Transducer.run] at more ⊢
    rw [start, after] at more
    rw [ended, after]
    obtain ⟨rfl, rfl⟩ := Prod.mk.inj more
    rfl
  exact (reads_word word).append reads

end

/-! ## Declarations -/

theorem reads_blanks (n : Nat) : scanner.Reads (.word []) (List.replicate n ' ') [] (.word []) := by
  induction n with
  | zero => exact .nil _ _
  | succ n ih =>
      have blank : scanner.step (.word []) ' ' = ([], .word []) := rfl
      exact .cons blank ih

/-- A sign between tokens. -/
theorem reads_sign {c : Char} {rest : Name} {ts : List Token} {m : Mode} (sign : c ∈ signs)
    (more : scanner.Reads (.word []) rest ts m) : scanner.Reads (.word []) (c :: rest) (.sign c :: ts) m := by
  have steps : signs.all (fun c => decide (scanner.step (.word []) c = ([.sign c], .word []))) = true := by decide
  have step := of_decide_eq_true (List.all_eq_true.mp steps c sign)
  exact .cons step more

theorem reads_blank {rest : Name} {ts : List Token} {m : Mode}
    (more : scanner.Reads (.word []) rest ts m) : scanner.Reads (.word []) (' ' :: rest) ts m :=
  (reads_blanks 1).append more

theorem reads_line {rest : Name} {ts : List Token} {m : Mode}
    (more : scanner.Reads (.word []) rest ts m) : scanner.Reads (.word []) ('\n' :: rest) ts m := by
  have line : scanner.step (.word []) '\n' = ([], .word []) := rfl
  exact .cons line more

/-- A size is an `int`, and the name of a dimension, if there is any, is a name. So is that of a variable. -/
def Dimension.Named (dim : Dimension) : Prop := Ints.FitsI32 dim.size ∧ (dim.name ≠ [] → IsName dim.name)

def Declarator.Named (d : Declarator) : Prop := IsName d.name ∧ ∀ dim ∈ d.shape.getD [], dim.Named

mutual

def Variable.Named : Variable → Prop
  | .simple _ d => d.Named
  | .ctor _ vars d => NamedIn vars ∧ d.Named
  | .grid array maps d => array.Named ∧ NamedIn maps ∧ d.Named

def Variable.NamedIn : List Variable → Prop
  | [] => True
  | v :: vs => v.Named ∧ NamedIn vs

end

section

variable {rest : Name} {ts : List Token} {m : Mode}

theorem Dimension.reads {dim : Dimension} (named : dim.Named) (more : scanner.Reads (.word []) rest ts m) :
    scanner.Reads (.word []) (dim.print ++ rest) (dim.tokens ++ ts) m := by
  rw [print, tokens]
  have size : scanner.Reads (.word []) (showInt dim.size ++ ']' :: rest) (tokenOf (showInt dim.size) :: .sign ']' :: ts) m :=
    reads_token (isWord_showInt _) (by decide) (by decide) (reads_sign (by decide) more)
  split
  · rename_i some_
    have name := reads_token (isWord_id2www (named.2 some_)) (c := ' ') (by decide) (by decide)
      (reads_blank (reads_sign (c := '=') (by decide) (reads_blank size)))
    have whole := reads_sign (c := '[') (by decide) name
    have equals : " = ".toList = [' ', '=', ' '] := rfl
    simpa only [equals, List.append_assoc, List.cons_append, List.nil_append] using whole
  · have whole := reads_sign (c := '[') (by decide) size
    simpa only [List.append_assoc, List.cons_append, List.nil_append] using whole

theorem Dimension.reads_all {dims : List Dimension} (named : ∀ dim ∈ dims, dim.Named)
    (more : scanner.Reads (.word []) rest ts m) :
    scanner.Reads (.word []) (dims.flatMap print ++ rest) (dims.flatMap tokens ++ ts) m := by
  induction dims with
  | nil => exact more
  | cons dim dims ih =>
      obtain ⟨first, others⟩ := List.forall_mem_cons.mp named
      rw [List.flatMap_cons, List.flatMap_cons, List.append_assoc, List.append_assoc]
      exact dim.reads first (ih others)

/-- After a name comes what does not belong to a word. -/
theorem Dimension.starts (dims : List Dimension) (rest : Name) :
    ∃ c cs, dims.flatMap print ++ ';' :: rest = c :: cs ∧ isNext c = false ∧ c ≠ ':' := by
  cases dims with
  | nil => exact ⟨';', rest, rfl, by decide, by decide⟩
  | cons dim dims =>
      rw [List.flatMap_cons, print]
      split
      · exact ⟨'[', _, rfl, by decide, by decide⟩
      · exact ⟨'[', _, rfl, by decide, by decide⟩

theorem Declarator.reads {d : Declarator} (named : d.Named) (more : scanner.Reads (.word []) rest ts m) :
    scanner.Reads (.word []) (d.print ++ rest) (d.tokens ++ ts) m := by
  have dims := Dimension.reads_all named.2 (reads_sign (c := ';') (by decide) (reads_line more))
  obtain ⟨c, cs, starts, ends, plain⟩ := Dimension.starts (d.shape.getD []) ('\n' :: rest)
  rw [starts] at dims
  have whole := reads_token (isWord_id2www named.1) ends plain dims
  rw [← starts] at whole
  have semicolon : ";\n".toList = [';', '\n'] := rfl
  rw [print, tokens, semicolon]
  simpa only [List.append_assoc, List.cons_append, List.nil_append] using whole

/-- A word that is known, and what ends it. -/
theorem reads_known {w : Name} {c : Char} (word : IsWord w) (ends : isNext c = false) (plain : c ≠ ':') {t : Token}
    (known : tokenOf w = t) (more : scanner.Reads (.word []) (c :: rest) ts m) :
    scanner.Reads (.word []) (w ++ c :: rest) (t :: ts) m :=
  known ▸ reads_token word ends plain more

theorem reads_space (n : Nat) (more : scanner.Reads (.word []) rest ts m) :
    scanner.Reads (.word []) (List.replicate n ' ' ++ rest) ts m :=
  (reads_blanks n).append more

instance (w : Name) : Decidable (IsWord w) :=
  @instDecidableAnd _ _ inferInstance (List.decidableBAll (fun c => isFirst c = true) w)

/-- A brace, and the end of the line. -/
theorem reads_open (more : scanner.Reads (.word []) rest ts m) :
    scanner.Reads (.word []) (' ' :: '{' :: '\n' :: rest) (.sign '{' :: ts) m :=
  reads_blank (reads_sign (by decide) (reads_line more))

theorem reads_close (more : scanner.Reads (.word []) rest ts m) :
    scanner.Reads (.word []) ('}' :: ' ' :: rest) (.sign '}' :: ts) m :=
  reads_sign (by decide) (reads_blank more)

instance (m m' : Mode) (text : Name) (ts : List Token) : Decidable (scanner.Reads m text ts m') :=
  inferInstanceAs (Decidable (_ = _))

theorem reads_array (more : scanner.Reads (.word []) rest ts m) :
    scanner.Reads (.word []) ("  Array:\n".toList ++ rest) (.word "Array".toList :: .sign ':' :: ts) m :=
  have heading : scanner.Reads (.word []) "  Array:\n".toList [.word "Array".toList, .sign ':'] (.word []) := by
    decide +kernel
  heading.append more

theorem reads_maps (more : scanner.Reads (.word []) rest ts m) :
    scanner.Reads (.word []) ("  Maps:\n".toList ++ rest) (.word "Maps".toList :: .sign ':' :: ts) m :=
  have heading : scanner.Reads (.word []) "  Maps:\n".toList [.word "Maps".toList, .sign ':'] (.word []) := by
    decide +kernel
  heading.append more

mutual

theorem Variable.reads (v : Variable) {n : Nat} {rest : Name} {ts : List Token} {m : Mode} (named : v.Named)
    (more : scanner.Reads (.word []) rest ts m) :
    scanner.Reads (.word []) (v.print_decl (List.replicate n ' ') ++ rest) (v.tokens ++ ts) m := by
  cases v with
  | simple type d =>
      rw [Variable.Named] at named
      have whole := reads_space n (reads_known (w := type.type_name) (t := .keyword (.scan_simple type) type.type_name)
        (by cases type <;> decide +kernel) (by decide) (by decide) (by cases type <;> decide +kernel)
        (reads_blank (d.reads named more)))
      rw [print_decl, tokens]
      simpa only [List.append_assoc, List.cons_append, List.nil_append] using whole
  | ctor kind vars d =>
      rw [Variable.Named] at named
      have inner := readsIn vars named.1 (n := n + 4) (reads_space n (reads_close (d.reads named.2 more)))
      have whole := reads_space n (reads_known (w := kind.type_name) (t := .keyword kind.keyword kind.type_name)
        (by cases kind <;> decide +kernel) (by decide) (by decide) (by cases kind <;> decide +kernel) (reads_open inner))
      have deeper : List.replicate n ' ' ++ "    ".toList = List.replicate (n + 4) ' ' := (List.replicate_add n 4 ' ').symm
      have opened : " \x7b\n".toList = [' ', '{', '\n'] := rfl
      have closed : "\x7d ".toList = ['}', ' '] := rfl
      rw [print_decl, tokens, deeper, opened, closed]
      simpa only [List.append_assoc, List.cons_append, List.nil_append] using whole
  | grid array maps d =>
      rw [Variable.Named] at named
      have last := readsIn maps named.2.1 (n := n + 4) (reads_space n (reads_close (d.reads named.2.2 more)))
      have first := array.reads named.1 (n := n + 4) (reads_space n (reads_maps last))
      have whole := reads_space n (reads_known (w := "Grid".toList) (t := .keyword .scan_grid "Grid".toList)
        (by decide +kernel) (by decide) (by decide) (by decide +kernel) (reads_open (reads_space n (reads_array first))))
      have deeper : List.replicate n ' ' ++ "    ".toList = List.replicate (n + 4) ' ' := (List.replicate_add n 4 ' ').symm
      have opened : " \x7b\n".toList = [' ', '{', '\n'] := rfl
      have closed : "\x7d ".toList = ['}', ' '] := rfl
      rw [print_decl, tokens, deeper, opened, closed]
      simpa only [List.append_assoc, List.cons_append, List.nil_append] using whole

theorem Variable.readsIn (vs : List Variable) {n : Nat} {rest : Name} {ts : List Token} {m : Mode} (named : NamedIn vs)
    (more : scanner.Reads (.word []) rest ts m) :
    scanner.Reads (.word []) (print_decls (List.replicate n ' ') vs ++ rest) (tokensIn vs ++ ts) m := by
  cases vs with
  | nil =>
      rw [print_decls, tokensIn]
      exact more
  | cons v vs =>
      rw [NamedIn] at named
      rw [print_decls, tokensIn, List.append_assoc, List.append_assoc]
      exact v.reads named.1 (readsIn vs named.2 more)

end

end

/-- All names of a DDS are names. -/
def DDS.Named (dds : DDS) : Prop := Variable.NamedIn dds.vars ∧ IsName dds.d_name

theorem scan_print {dds : DDS} (named : dds.Named) : scan dds.print = dds.tokens := by
  have semicolon : scanner.Reads (.word []) [';', '\n'] [.sign ';'] (.word []) := rfl
  have name := reads_token (isWord_id2www named.2) (by decide) (by decide) semicolon
  have inner := Variable.readsIn dds.vars named.1 (n := 4) (reads_close name)
  have whole := reads_known (w := "Dataset".toList) (t := .keyword .scan_dataset "Dataset".toList)
    (by decide +kernel) (by decide) (by decide) (by decide +kernel) (reads_open inner)
  have text : dds.print = "Dataset".toList ++ ' ' :: '{' :: '\n' :: (Variable.print_decls (List.replicate 4 ' ') dds.vars ++
      '}' :: ' ' :: (id2www dds.d_name ++ [';', '\n'])) := rfl
  have ends : (dds.print.reverse.dropWhile (· ≠ '\n')).reverse = dds.print := by
    have last : ∃ init, dds.print = init ++ ['\n'] := by
      refine ⟨"Dataset".toList ++ ' ' :: '{' :: '\n' :: (Variable.print_decls (List.replicate 4 ' ') dds.vars ++
        '}' :: ' ' :: (id2www dds.d_name ++ [';'])), ?_⟩
      rw [text]
      simp only [List.append_assoc, List.cons_append, List.nil_append]
    obtain ⟨init, last⟩ := last
    rw [last, List.reverse_append, List.reverse_singleton, List.singleton_append, List.dropWhile_cons_of_neg (by decide),
      List.reverse_cons, List.reverse_reverse]
  rw [scan, ends, text, whole.output_eq]
  exact List.append_nil _

end Libdap.Dap2.Text
