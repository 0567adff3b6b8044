import FstWaveDemo.Flex.Select
import FstWaveDemo.Parser.Syntax

/-! # The scanner of FIRRTL

The rules of `lexical.l`, start condition by start condition and in the order of
the file, and the state of the `Lexical` object they work on. `Lexical.step` is one
match of the scanner with its action; a call of `lex` makes steps until one returns
a token. Characters stand for bytes.
-/

namespace FstWaveDemo

open Flex (CharSet Pattern)
open Flex.Pattern (lit plus opt)

/-- The start conditions. -/
inductive Mode
  | indent | info | anno | dotId | intid | normal
  deriving DecidableEq

/-- The bracket counters of the `Lexical` object. -/
inductive Counter
  | angle_num | square_num | bracket_num | parenthesis_num
  deriving DecidableEq

/-- What the action of a rule does. -/
inductive Action
  /-- Count a space of the indentation. -/
  | space
  /-- Count a tab of the indentation. -/
  | tab
  /-- Restart the indentation on the next line. -/
  | newline
  /-- `yyless(0)`, and compare the indentation with the open levels. -/
  | layout
  /-- `BEGIN(mode)`. -/
  | begin (mode : Mode)
  /-- Nothing that matters to the scanner; unknown characters are reported. -/
  | ignore
  /-- Return a token without a value. -/
  | token (name : TokenName)
  /-- Return a token with the matched text. -/
  | text (name : TokenName)
  /-- Return a token with a constant. -/
  | constant (text : String) (name : TokenName)
  /-- Count the parenthesis; return a token with the matched text before it. -/
  | operator (name : TokenName)
  /-- Count the parenthesis; return a token with a constant. -/
  | operatorConstant (text : String) (name : TokenName)
  /-- `BEGIN(normal)`; return the matched text as an identifier. -/
  | dotName
  /-- Return the matched text, as an identifier if only braces are open. -/
  | int_dec
  /-- Count a bracket; return the matched character. -/
  | count (counter : Counter) (change : Int)
  /-- `BEGIN(dotId)` unless on the first line; return the dot. -/
  | dot
  /-- Return the matched character. -/
  | character
  /-- `curr_indent = 0; BEGIN(indent)`. -/
  | lineEnd
  deriving DecidableEq

namespace Rules

/-- The pattern of a set of characters. -/
def set (ranges : CharSet) : Pattern := .chars ranges

/-- Alternatives. -/
def alts (patterns : List Pattern) : Pattern := patterns.foldr .alt .fail

def digit_bin : CharSet := [('0', '1')]
def digit_oct : CharSet := [('0', '7')]
def digit_dec : CharSet := [('0', '9')]
def digit_hex : CharSet := [('0', '9'), ('A', 'F'), ('a', 'f')]
def letter : CharSet := [('A', 'Z'), ('a', 'z')]

/-- What an identifier may begin with. -/
def id_start : CharSet := ('_', '_') :: letter

/-- What an identifier may go on with. -/
def id_char : CharSet := ('_', '_') :: letter ++ digit_dec

def int : Pattern := .cat (opt (lit "-")) (plus (set digit_dec))

/-- One of the four radix notations. -/
def radix (mark : String) (digit : CharSet) : Pattern :=
  .cat (opt (lit "-")) (.cat (lit mark) (plus (set digit)))

def rint : Pattern :=
  alts [radix "0b" digit_bin, radix "0o" digit_oct, radix "0d" digit_dec, radix "0h" digit_hex]

def int_dec : Pattern := .cat (opt (lit "-")) (plus (set digit_dec))

def id : Pattern := .cat (set id_start) (.star (set id_char))

/-- The characters of a string besides an escaped quote. -/
def string_char : CharSet :=
  [('!', '!'), ('|', '|'), ('0', '9'), ('A', 'Z'), ('a', 'z'), (' ', ' '), ('%', '%'), ('\\', '\\'),
    (',', ','), (':', ':'), ('=', '='), ('_', '_'), ('^', '^'), ('.', '.'), ('&', '&'), ('~', '~'),
    ('\t', '\t'), ('(', '('), (')', '{'), ('}', '}'), ('$', '$'), ('\'', '\''), ('#', '#')]

def string : Pattern :=
  .cat (lit "\"") (.cat (.star (.alt (lit "\\\"") (set string_char))) (lit "\""))

/-- The characters of a locator. -/
def info_char : CharSet :=
  [('0', '9'), ('A', 'Z'), ('a', 'z'), ('.', '.'), ('\x7b', '\x7b'), ('\x7d', '\x7d'), (':', ':'),
    (',', ','), ('/', '/'), (' ', ' '), ('_', '_'), ('-', '-')]

def info : Pattern := plus (set info_char)

/-- Any character but a newline. -/
def any : Pattern := set [('\x00', '\x09'), ('\x0b', Char.ofNat 0x10ffff)]

/-- A rule of the file. -/
abbrev rule (pattern : Pattern) (action : Action) : Flex.Rule Action := ⟨pattern, action⟩

/-- A rule for a keyword without a value. -/
abbrev keyword (word : String) (name : TokenName) : Flex.Rule Action :=
  rule (lit word) (.token name)

/-- A rule for a word that sets its value to itself. -/
abbrev ground (word : String) (name : TokenName) : Flex.Rule Action :=
  rule (lit word) (.constant word name)

/-- Operator names with the parenthesis after them. -/
def operators (names : List String) : Pattern := .cat (alts (names.map lit)) (set [('(', '(')])

def indentRules : List (Flex.Rule Action) := [
  rule (lit " ") .space,
  rule (lit "\t") .tab,
  rule (lit "\n") .newline,
  rule any .layout]

def intidRules : List (Flex.Rule Action) := [
  rule int (.text .ID),
  rule (lit "`") (.begin .normal)]

def infoRules : List (Flex.Rule Action) := [
  rule (lit "[") .ignore,
  rule (.star info) (.text .Info),
  rule (lit "]") (.begin .normal)]

def dotIdRules : List (Flex.Rule Action) := [
  rule (.alt int_dec id) .dotName,
  rule (lit "`") (.begin .intid)]

def annoRules : List (Flex.Rule Action) := [
  rule (lit "]]") (.begin .normal),
  rule (.alt (lit "\n") any) .ignore]

/-- Mode switches, types and operators. -/
def typeRules : List (Flex.Rule Action) := [
  rule (lit "@") (.begin .info),
  rule (lit "`") (.begin .intid),
  rule (lit "%[[") (.begin .anno),
  keyword "<<" .DoubleLeft,
  keyword ">>" .DoubleRight,
  ground "Clock" .Clock,
  ground "Reset" .Reset,
  ground "AsyncReset" .AsyReset,
  ground "UInt" .IntType,
  ground "SInt" .IntType,
  ground "Probe" .ProbeType,
  ground "probe" .Probe,
  ground "Analog" .anaType,
  ground "Fixed" .FixedType,
  keyword "flip" .Flip,
  rule (operators ["add", "sub", "mul", "div", "rem", "lt", "leq", "gt", "geq", "eq", "neq", "dshl",
    "dshr", "and", "or", "xor", "cat"]) (.operator .E2OP),
  rule (operators ["asUInt", "asSInt", "asClock", "asAsyncReset", "cvt", "neg", "not", "andr",
    "orr", "xorr"]) (.operator .E1OP),
  rule (operators ["pad", "shl", "shr", "head", "tail"]) (.operator .E1I1OP),
  rule (operators ["bits"]) (.operatorConstant "bits" .E1I2OP),
  keyword "mux" .Mux,
  keyword "validif" .Validif]

/-- Memories, numbers and memory fields. -/
def memoryRules : List (Flex.Rule Action) := [
  ground "old" .Ruw,
  ground "new" .Ruw,
  ground "undefined" .Ruw,
  keyword "mem" .Mem,
  keyword "smem" .SMem,
  keyword "cmem" .CMem,
  keyword "write" .Write,
  keyword "read" .Read,
  keyword "infer" .Infer,
  keyword "mport" .Mport,
  rule int (.text .INT),
  rule rint (.text .RINT),
  rule int_dec .int_dec,
  keyword "data-type" .DataType,
  keyword "depth" .Depth,
  keyword "read-latency" .ReadLatency,
  keyword "write-latency" .WriteLatency,
  keyword "read-under-write" .ReadUnderwrite,
  keyword "reader" .Reader,
  keyword "writer" .Writer,
  keyword "readwriter" .Readwriter]

/-- Statements, modules and identifiers. -/
def statementRules : List (Flex.Rule Action) := [
  keyword "wire" .Wire,
  keyword "reg" .Reg,
  keyword "regreset" .RegReset,
  keyword "inst" .Inst,
  keyword "of" .Of,
  keyword "node" .Node,
  keyword "invalidate" .Invalidate,
  keyword "attach" .Attach,
  keyword "when" .When,
  keyword "else" .Else,
  keyword "stop" .Stop,
  keyword "printf" .Printf,
  keyword "assert" .Assert,
  keyword "skip" .Skip,
  keyword "input" .Input,
  keyword "output" .Output,
  keyword "module" .Module,
  keyword "extmodule" .Extmodule,
  keyword "defname" .Defname,
  keyword "parameter" .Parameter,
  keyword "intmodule" .Intmodule,
  keyword "intrinsic" .Intrinsic,
  keyword "FIRRTL" .Firrtl,
  keyword "version" .Version,
  keyword "circuit" .Circuit,
  keyword "connect" .Connect,
  keyword "public" .Public,
  keyword "define" .Define,
  keyword "const" .Const,
  rule id (.text .ID),
  rule string (.text .String)]

/-- Punctuation and white space. -/
def punctuationRules : List (Flex.Rule Action) := [
  keyword "=>" .RightArrow,
  keyword "<-" .Leftarrow,
  rule (lit "<") (.count .angle_num 1),
  rule (lit ">") (.count .angle_num (-1)),
  rule (lit "[") (.count .square_num 1),
  rule (lit "]") (.count .square_num (-1)),
  rule (lit "\x7b") (.count .bracket_num 1),
  rule (lit "\x7d") (.count .bracket_num (-1)),
  rule (lit "(") (.count .parenthesis_num 1),
  rule (lit ")") (.count .parenthesis_num (-1)),
  rule (lit ".") .dot,
  rule (set [('.', '.'), (',', ','), (':', ':'), ('=', '='), ('@', '@'), ('%', '%'), ('<', '<'),
    ('>', '>'), ('(', '('), (')', ')'), ('[', '['), (']', ']'), ('\x7b', '\x7b'), ('\x7d', '\x7d'),
    ('"', '"')]) .character,
  rule (set [(' ', ' '), ('\t', '\t')]) .ignore,
  rule (lit "\n") .lineEnd,
  rule any .ignore]

def normalRules : List (Flex.Rule Action) :=
  typeRules ++ memoryRules ++ statementRules ++ punctuationRules

/-- The rules of a start condition. -/
def of : Mode → List (Flex.Rule Action)
  | .indent => indentRules
  | .info => infoRules
  | .anno => annoRules
  | .dotId => dotIdRules
  | .intid => intidRules
  | .normal => normalRules

end Rules

/-- The state of a `Lexical` object: `mode` is flex's start condition, `lineno` its
line counter; `indentLevels` has the top of the stack in front. -/
structure Lexical where
  mode : Mode
  lineno : Nat
  curr_indent : Nat
  angle_num : Int
  square_num : Int
  bracket_num : Int
  parenthesis_num : Int
  indentLevels : List Nat

namespace Lexical

/-- A new `Lexical` object after `set_lineno` and `YY_USER_INIT`. -/
def new (lineno : Nat) : Lexical := ⟨.indent, lineno, 0, 0, 0, 0, 0, [0]⟩

/-- The result of a step of the scanner. -/
inductive Step
  /-- A token is returned. -/
  | token (lexeme : Lexeme) (scanner : Lexical) (rest : Text)
  /-- The scanner goes on to the next match. -/
  | next (scanner : Lexical) (rest : Text)
  /-- The end of input, or `yyterminate()`. -/
  | eof (lexeme : Lexeme)
  /-- No rule matches, and there is no default rule. -/
  | jam

def TAB_WIDTH : Nat := 2

/-- `indentLevels.top()`. -/
def top (s : Lexical) : Nat := s.indentLevels.headD 0

/-- `++` or `--` on a bracket counter. -/
def bump (s : Lexical) (change : Int) : Counter → Lexical
  | .angle_num => { s with angle_num := s.angle_num + change }
  | .square_num => { s with square_num := s.square_num + change }
  | .bracket_num => { s with bracket_num := s.bracket_num + change }
  | .parenthesis_num => { s with parenthesis_num := s.parenthesis_num + change }

/-- Return a token. -/
def ret (s : Lexical) (kind : Kind) (val : Val) (rest : Text) : Step :=
  .token ⟨⟨kind, val⟩, s.lineno⟩ s rest

/-- The action of the `<indent>.` rule. -/
def layout (s : Lexical) (rest : Text) : Step :=
  if s.top < s.curr_indent then
    ret { s with mode := .normal, indentLevels := s.curr_indent :: s.indentLevels }
      (.token .INDENT) .undef rest
  else if s.curr_indent < s.top then
    ret { s with indentLevels := s.indentLevels.tail } (.token .DEDENT) .undef rest
  else .next { s with mode := .normal } rest

/-- The action of a rule on the matched text. -/
def perform (s : Lexical) (yytext rest : Text) : Action → Step
  | .space => .next { s with curr_indent := s.curr_indent + 1 } rest
  | .tab =>
      let indent := s.curr_indent + TAB_WIDTH
      .next { s with curr_indent := indent - Nat.land indent (TAB_WIDTH - 1) } rest
  | .newline => .next { s with curr_indent := 0 } rest
  | .layout => layout s (yytext ++ rest)
  | .begin mode => .next { s with mode } rest
  | .ignore => .next s rest
  | .token name => ret s (.token name) .undef rest
  | .text name => ret s (.token name) (.str (some yytext)) rest
  | .constant text name => ret s (.token name) (.str (some text.toList)) rest
  | .operator name =>
      ret (s.bump 1 .parenthesis_num) (.token name) (.str (some yytext.dropLast)) rest
  | .operatorConstant text name =>
      ret (s.bump 1 .parenthesis_num) (.token name) (.str (some text.toList)) rest
  | .dotName => ret { s with mode := .normal } (.token .ID) (.str (some yytext)) rest
  | .int_dec =>
      if s.angle_num = 0 ∧ s.square_num = 0 ∧ s.parenthesis_num = 0 ∧ s.bracket_num ≠ 0 then
        ret s (.token .ID) (.str (some yytext)) rest
      else ret s (.token .INT) (.str (some yytext)) rest
  | .count counter change => ret (s.bump change counter) (.char (yytext.headD ' ')) .undef rest
  | .dot =>
      ret (if s.lineno ≠ 1 then { s with mode := .dotId } else s) (.char (yytext.headD ' ')) .undef
        rest
  | .character => ret s (.char (yytext.headD ' ')) .undef rest
  | .lineEnd => .next { s with mode := .indent, curr_indent := 0 } rest

/-- The lexeme for the end of input. -/
def eofLexeme (s : Lexical) : Lexeme := ⟨⟨.token .eof, .undef⟩, s.lineno⟩

/-- The `<<EOF>>` rules. -/
def atEof (s : Lexical) : Step :=
  match s.mode with
  | .indent =>
      if s.top ≠ 0 then
        ret { s with indentLevels := s.indentLevels.tail } (.token .DEDENT) .undef []
      else .eof s.eofLexeme
  | _ => .eof s.eofLexeme

/-- The line counter after a match. -/
def countLines (s : Lexical) (yytext : Text) : Lexical :=
  { s with lineno := s.lineno + yytext.count '\n' }

/-- One match of the scanner, the line counter, and the action. -/
def step (s : Lexical) : Text → Step
  | [] => s.atEof
  | c :: text =>
      match Flex.select (Rules.of s.mode) (c :: text) with
      | none => .jam
      | some (length, action) =>
          let yytext := (c :: text).take length
          perform (s.countLines yytext) yytext ((c :: text).drop length) action

/-- `Scans s text lexemes s' rest`: from state `s`, the scanner reads the text up to
`rest` and returns the lexemes on the way. -/
inductive Scans : Lexical → Text → List Lexeme → Lexical → Text → Prop
  | refl {s : Lexical} {text : Text} : Scans s text [] s text
  | next {s s' s'' : Lexical} {text text' text'' : Text} {lexemes : List Lexeme}
      (stepped : s.step text = .next s' text') (rest : Scans s' text' lexemes s'' text'') :
      Scans s text lexemes s'' text''
  | token {s s' s'' : Lexical} {text text' text'' : Text} {lexeme : Lexeme}
      {lexemes : List Lexeme} (stepped : s.step text = .token lexeme s' text')
      (rest : Scans s' text' lexemes s'' text'') : Scans s text (lexeme :: lexemes) s'' text''

/-- The lexemes that the scanner returns for a text, the end of input included. -/
def Scanned (lineno : Nat) (text : Text) (lexemes : List Lexeme) (eof : Lexeme) : Prop :=
  ∃ s, Scans (new lineno) text lexemes s [] ∧ s.step [] = .eof eof

/-- Run the scanner to the end of input, for at most `fuel` steps. -/
def run : (fuel : Nat) → Lexical → Text → Option (List Lexeme × Lexical)
  | 0, _, _ => none
  | fuel + 1, s, text =>
      match s.step text with
      | .token lexeme s text => (run fuel s text).map fun (lexemes, s) => (lexeme :: lexemes, s)
      | .next s text => run fuel s text
      | .eof _ => some ([], s)
      | .jam => none

/-- The tokens returned by a number of steps, with the state and the text they lead to. -/
def advance : (steps : Nat) → Lexical → Text → Option (List Lexeme × Lexical × Text)
  | 0, s, text => some ([], s, text)
  | steps + 1, s, text =>
      match s.step text with
      | .token lexeme s text =>
          (advance steps s text).map fun (lexemes, s, rest) => (lexeme :: lexemes, s, rest)
      | .next s text => advance steps s text
      | .eof _ => none
      | .jam => none

end Lexical

end FstWaveDemo
