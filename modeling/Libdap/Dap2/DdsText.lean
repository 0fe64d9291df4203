import Libdap.Dap2.Names
import Libdap.Foundation.Transducer
import Mathlib.Data.List.Nodup

/-! # The text of a DDS

`DDS::print`, and the scanner of `dds.lex`. The text ends with the end of a line.
-/

namespace Libdap.Dap2.Text

open Dap4 (Name www2id)

inductive SimpleType where
  | dods_byte_c
  | dods_int16_c
  | dods_uint16_c
  | dods_int32_c
  | dods_uint32_c
  | dods_float32_c
  | dods_float64_c
  | dods_str_c
  | dods_url_c
  deriving Repr, DecidableEq

inductive Kind where
  | dods_structure_c
  | dods_sequence_c
  deriving Repr, DecidableEq

structure Dimension where
  size : Int
  name : Name
  deriving Repr, DecidableEq

/-- The name of a variable and, for an array, its shape. The template of an array has the same name. -/
structure Declarator where
  name : Name
  shape : Option (List Dimension)
  deriving Repr, DecidableEq

/-- A variable, or an array with the variable for its template. The template of an array is not an array. -/
inductive Variable where
  | simple (type : SimpleType) (d : Declarator)
  | ctor (kind : Kind) (vars : List Variable) (d : Declarator)
  | grid (array : Variable) (maps : List Variable) (d : Declarator)

structure DDS where
  vars : List Variable
  d_name : Name

namespace SimpleType

def type_name : SimpleType → Name
  | dods_byte_c => "Byte".toList
  | dods_int16_c => "Int16".toList
  | dods_uint16_c => "UInt16".toList
  | dods_int32_c => "Int32".toList
  | dods_uint32_c => "UInt32".toList
  | dods_float32_c => "Float32".toList
  | dods_float64_c => "Float64".toList
  | dods_str_c => "String".toList
  | dods_url_c => "Url".toList

def all : List SimpleType := [dods_byte_c, dods_int16_c, dods_uint16_c, dods_int32_c, dods_uint32_c, dods_float32_c, dods_float64_c, dods_str_c,
  dods_url_c]

end SimpleType

def Kind.type_name : Kind → Name
  | dods_structure_c => "Structure".toList
  | dods_sequence_c => "Sequence".toList

/-- An `int` on a stream. -/
def showInt (n : Int) : Name := if n < 0 then '-' :: Nat.toDigits 10 n.natAbs else Nat.toDigits 10 n.natAbs

/-! ## Printing -/

def Dimension.print (dim : Dimension) : Name :=
  if dim.name ≠ [] then '[' :: (id2www dim.name ++ (" = ".toList ++ (showInt dim.size ++ [']'])))
  else '[' :: (showInt dim.size ++ [']'])

/-- The name, the dimensions of an array, and the semicolon. -/
def Declarator.print (d : Declarator) : Name :=
  id2www d.name ++ ((d.shape.getD []).flatMap Dimension.print ++ ";\n".toList)

mutual

/-- `print_decl`. The template of an array is printed without a semicolon, and then the dimensions. -/
def Variable.print_decl (space : Name) : Variable → Name
  | .simple type d => space ++ (type.type_name ++ (' ' :: d.print))
  | .ctor kind vars d =>
    space ++ (kind.type_name ++ (" \x7b\n".toList ++ (print_decls (space ++ "    ".toList) vars ++
      (space ++ ("\x7d ".toList ++ d.print)))))
  | .grid array maps d =>
    space ++ ("Grid".toList ++ (" \x7b\n".toList ++ (space ++ ("  Array:\n".toList ++
      (array.print_decl (space ++ "    ".toList) ++ (space ++ ("  Maps:\n".toList ++
        (print_decls (space ++ "    ".toList) maps ++ (space ++ ("\x7d ".toList ++ d.print))))))))))

def Variable.print_decls (space : Name) : List Variable → Name
  | [] => []
  | v :: vs => v.print_decl space ++ print_decls space vs

end

def DDS.print (dds : DDS) : Name :=
  "Dataset \x7b\n".toList ++ (Variable.print_decls "    ".toList dds.vars ++ ("\x7d ".toList ++ (id2www dds.d_name ++ ";\n".toList)))

/-! ## Scanning -/

inductive Keyword where
  | scan_dataset
  | scan_list
  | scan_sequence
  | scan_structure
  | scan_grid
  | scan_simple (type : SimpleType)
  deriving Repr, DecidableEq

namespace Keyword

def spelling : Keyword → Name
  | scan_dataset => "Dataset".toList
  | scan_list => "List".toList
  | scan_sequence => "Sequence".toList
  | scan_structure => "Structure".toList
  | scan_grid => "Grid".toList
  | scan_simple type => type.type_name

def all : List Keyword := [scan_dataset, scan_list, scan_sequence, scan_structure, scan_grid] ++ SimpleType.all.map scan_simple

/-- A keyword is spelled in capitals, with some capitals, or without. -/
def spellings (k : Keyword) : List Name := [k.spelling.map Char.toUpper, k.spelling, k.spelling.map Char.toLower]

/-- The keyword that a word is. -/
def ofWord (w : Name) : Option Keyword := all.find? fun k => k.spellings.contains w

end Keyword

inductive Token where
  | sign (c : Char)
  | keyword (k : Keyword) (word : Name)
  | word (word : Name)
  deriving Repr, DecidableEq

def ID_MAX : Nat := 256

/-- `store_word` -/
def store_word (yytext : Name) : Name := yytext.take (ID_MAX - 1)

/-- The token of a word: a rule for a keyword comes before that for words. -/
def tokenOf (yytext : Name) : Token :=
  match Keyword.ofWord yytext with
  | some k => .keyword k (store_word yytext)
  | none => .word (store_word yytext)

/-- What a word starts with. -/
def isFirst (c : Char) : Bool := c.isAlphanum || c ∈ "-+_/%.\\*".toList

/-- What comes after that in a word. -/
def isNext (c : Char) : Bool := isFirst c || c = '#'

def signs : List Char := "\x7b\x7d[]:;=".toList

/-- Where the scanner is: in a word or, with none of it, between tokens; in what may be the line that
    ends the DDS of a data response, which no other rule matches as much of; in a comment; at the end. -/
inductive Mode where
  | word (w : Name)
  | dataColon
  | dataColonReturn
  | comment
  | ended
  deriving Repr, DecidableEq

/-- A character at the start of a token. What no rule knows is left out. -/
def begin_ (c : Char) : List Token × Mode :=
  if isFirst c then ([], .word [c])
  else if c ∈ signs then ([.sign c], .word [])
  else if c = '#' then ([], .comment)
  else ([], .word [])

def flush (w : Name) : List Token := if w = [] then [] else [tokenOf w]

/-- Write tokens, and start another with the character. -/
def after (ts : List Token) (c : Char) : List Token × Mode := (ts ++ (begin_ c).1, (begin_ c).2)

def Mode.step : Mode → Char → List Token × Mode
  | .word w, c =>
    if w ≠ [] ∧ isNext c then ([], .word (w ++ [c]))
    else if w = "Data".toList ∧ c = ':' then ([], .dataColon)
    else after (flush w) c
  | .dataColon, c =>
    if c = '\n' then ([], .ended)
    else if c = '\r' then ([], .dataColonReturn)
    else after [tokenOf "Data".toList, .sign ':'] c
  | .dataColonReturn, c => if c = '\n' then ([], .ended) else after [tokenOf "Data".toList, .sign ':'] c
  | .comment, c => if c = '\n' then ([], .word []) else ([], .comment)
  | .ended, _ => ([], .ended)

def Mode.finish : Mode → List Token
  | .word w => flush w
  | .dataColon | .dataColonReturn => [tokenOf "Data".toList, .sign ':']
  | .comment | .ended => []

def scanner : Transducer Mode Char Token := ⟨Mode.step, Mode.finish⟩

/-- `ddslex`, called until the end. What comes after the last end of a line is not read. -/
def scan (text : Name) : List Token :=
  scanner.output (.word []) (text.reverse.dropWhile (· ≠ '\n')).reverse

/-! ## The tokens of a DDS -/

def Dimension.tokens (dim : Dimension) : List Token :=
  if dim.name ≠ [] then .sign '[' :: tokenOf (id2www dim.name) :: .sign '=' :: tokenOf (showInt dim.size) :: [.sign ']']
  else .sign '[' :: tokenOf (showInt dim.size) :: [.sign ']']

def Declarator.tokens (d : Declarator) : List Token :=
  tokenOf (id2www d.name) :: ((d.shape.getD []).flatMap Dimension.tokens ++ [.sign ';'])

def Kind.keyword : Kind → Keyword
  | dods_structure_c => .scan_structure
  | dods_sequence_c => .scan_sequence

mutual

def Variable.tokens : Variable → List Token
  | .simple type d => .keyword (.scan_simple type) type.type_name :: d.tokens
  | .ctor kind vars d => .keyword kind.keyword kind.type_name :: .sign '{' :: (tokensIn vars ++ .sign '}' :: d.tokens)
  | .grid array maps d =>
    .keyword .scan_grid "Grid".toList :: .sign '{' :: .word "Array".toList :: .sign ':' :: (array.tokens ++
      .word "Maps".toList :: .sign ':' :: (tokensIn maps ++ .sign '}' :: d.tokens))

def Variable.tokensIn : List Variable → List Token
  | [] => []
  | v :: vs => v.tokens ++ tokensIn vs

end

def DDS.tokens (dds : DDS) : List Token :=
  .keyword .scan_dataset "Dataset".toList :: .sign '{' :: (Variable.tokensIn dds.vars ++
    .sign '}' :: tokenOf (id2www dds.d_name) :: [.sign ';'])

end Libdap.Dap2.Text
